/-!
# Sequencing of outcomes

Encoders and readers stop at the first error. These equations take a sequence of
steps apart: it succeeds when each step does, and forgetting which error stopped
it commutes with sequencing. What stopped it is the first failure among the items
that the steps were about.
-/

namespace RecordCodec

namespace Outcome

variable {ε α β : Type}

@[simp] theorem ok_bind (a : α) (f : α → Except ε β) : (Except.ok a >>= f) = f a := rfl

@[simp] theorem error_bind (error : ε) (f : α → Except ε β) :
    ((Except.error error : Except ε α) >>= f) = .error error := rfl

@[simp] theorem pure_eq_ok (a : α) : (pure a : Except ε α) = .ok a := rfl

theorem bind_eq_ok {x : Except ε α} {f : α → Except ε β} {b : β} :
    (x >>= f) = .ok b ↔ ∃ a, x = .ok a ∧ f a = .ok b := by
  cases x with
  | error error => simp
  | ok a => simp

theorem map_eq_ok {x : Except ε α} {f : α → β} {b : β} :
    x.map f = .ok b ↔ ∃ a, x = .ok a ∧ b = f a := by
  cases x with
  | error error => simp [Except.map]
  | ok a => simp [Except.map, eq_comm]

/-- A check succeeds with its result when what it asks for holds. -/
theorem check_eq_ok {p : Prop} [Decidable p] {a b : α} {error : ε} :
    (if p then Except.ok a else .error error) = .ok b ↔ p ∧ b = a := by
  split
  · rename_i hp
    simp [hp, eq_comm]
  · rename_i hp
    simp [hp]

/-- What fails in a sequence is its first step, or the rest behind what that step gives. -/
theorem bind_eq_error {x : Except ε α} {f : α → Except ε β} {error : ε} :
    (x >>= f) = .error error ↔ x = .error error ∨ ∃ a, x = .ok a ∧ f a = .error error := by
  cases x with
  | error other => simp
  | ok a => simp

theorem check_eq_error {p : Prop} [Decidable p] {a : α} {error other : ε} :
    (if p then Except.ok a else .error error) = .error other ↔ ¬ p ∧ other = error := by
  split
  · rename_i hp
    simp [hp]
  · rename_i hp
    simp [hp, eq_comm]

@[simp] theorem toOption_ok (a : α) : (Except.ok a : Except ε α).toOption = some a := rfl

@[simp] theorem toOption_error (error : ε) :
    (Except.error error : Except ε α).toOption = none := rfl

/-- Which error stops a sequence does not matter for whether it succeeds. -/
theorem toOption_bind (x : Except ε α) (f : α → Except ε β) :
    (x >>= f).toOption = x.toOption.bind fun a => (f a).toOption := by
  cases x with
  | error error => rfl
  | ok a => rfl

theorem toOption_eq_some {x : Except ε α} {a : α} : x.toOption = some a ↔ x = .ok a := by
  cases x with
  | error error => simp
  | ok b => simp

theorem toOption_eq_none {x : Except ε α} : x.toOption = none ↔ ∃ error, x = .error error := by
  cases x with
  | error error => simp
  | ok a => simp

/-- A result whose value is changed, with the position behind it kept. -/
theorem map_value_eq_some {γ δ : Type} {x : Option (α × γ)} {f : α → δ} {d : δ} {c : γ} :
    (x.map fun (a, c) => (f a, c)) = some (d, c) ↔ ∃ a, x = some (a, c) ∧ d = f a := by
  simp only [Option.map_eq_some_iff, Prod.exists, Prod.mk.injEq]
  constructor
  · rintro ⟨a, c, hx, rfl, rfl⟩
    exact ⟨a, hx, rfl⟩
  · rintro ⟨a, hx, rfl⟩
    exact ⟨a, c, hx, rfl, rfl⟩

end Outcome

/-- The first item that is not sound fails in the given way. -/
def FirstFailure {α : Type} (sound fails : α → Prop) (items : List α) : Prop :=
  ∃ front item rest, items = front ++ item :: rest ∧ (∀ other ∈ front, sound other) ∧ fails item

namespace FirstFailure

variable {α β : Type} {sound fails : α → Prop} {items : List α}

theorem append (h : FirstFailure sound fails items) (others : List α) :
    FirstFailure sound fails (items ++ others) := by
  obtain ⟨front, item, rest, rfl, hfront, hitem⟩ := h
  exact ⟨front, item, rest ++ others, by simp, hfront, hitem⟩

theorem behind (h : FirstFailure sound fails items) {others : List α}
    (hothers : ∀ other ∈ others, sound other) : FirstFailure sound fails (others ++ items) := by
  obtain ⟨front, item, rest, rfl, hfront, hitem⟩ := h
  exact ⟨others ++ front, item, rest, by simp, List.forall_mem_append.mpr ⟨hothers, hfront⟩, hitem⟩

/-- Items can be replaced by others that are sound and fail alike. -/
theorem map {soundImage failsImage : β → Prop} (h : FirstFailure sound fails items) (f : α → β)
    (hsound : ∀ item, sound item → soundImage (f item))
    (hfails : ∀ item, fails item → failsImage (f item)) :
    FirstFailure soundImage failsImage (items.map f) := by
  obtain ⟨front, item, rest, rfl, hfront, hitem⟩ := h
  refine ⟨front.map f, f item, rest.map f, by simp, ?_, hfails item hitem⟩
  exact List.forall_mem_map.mpr fun other hmem => hsound other (hfront other hmem)

theorem exists_mem (h : FirstFailure sound fails items) : ∃ item ∈ items, fails item := by
  obtain ⟨front, item, rest, rfl, _, hitem⟩ := h
  exact ⟨item, by simp, hitem⟩

end FirstFailure

end RecordCodec
