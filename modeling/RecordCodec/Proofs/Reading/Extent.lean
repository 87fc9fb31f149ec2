import RecordCodec.Proofs.Reading.Shape

/-!
# What a reader consumes

Reading a well-formed shape consumes at least one byte, or the width of a leaf that
has one, and ends inside the input. The result depends only on the bytes up to
where it ends: every input that begins with these gives the same.
-/

namespace RecordCodec

/-- The reader consumes at least `unit` bytes and stays inside the input. -/
def Advances {α : Type} (data : Bytes) (unit : Nat) (read? : Nat → Option (α × Nat)) : Prop :=
  ∀ ⦃cursor a next⦄, cursor ≤ data.length → read? cursor = some (a, next) →
    cursor + unit ≤ next ∧ next ≤ data.length

theorem Advances.mono {α : Type} {data : Bytes} {m n : Nat} {read? : Nat → Option (α × Nat)}
    (h : Advances data n read?) (hle : m ≤ n) : Advances data m read? := by
  intro cursor a next hcursor hread
  obtain ⟨hnext, hlast⟩ := h hcursor hread
  exact ⟨by omega, hlast⟩

namespace Input

theorem advances_take? (data : Bytes) (n : Nat) : Advances data n (take? data · n) := by
  intro cursor bytes next _ h
  obtain ⟨hinput, _, rfl⟩ := take?_eq_some.mp h
  exact ⟨Nat.le_refl _, hinput⟩

theorem advances_count? (data : Bytes) : Advances data 4 (count? data) := by
  intro cursor count next _ h
  obtain ⟨hinput, _, rfl⟩ := count?_eq_some.mp h
  exact ⟨Nat.le_refl _, hinput⟩

theorem advances_payload? (data : Bytes) : Advances data 4 (payload? data) := by
  intro cursor payload next hcursor h
  obtain ⟨count, start, hcount, hpayload⟩ := payload?_eq_some.mp h
  obtain ⟨hstart, hinput⟩ := advances_count? data hcursor hcount
  obtain ⟨hnext, hlast⟩ := advances_take? data count hinput hpayload
  exact ⟨by omega, hlast⟩

end Input

namespace Leaf

/-- The width of a leaf in bytes, or one byte if it has none. -/
def unit : Leaf → Nat
  | primitive type => type.bitSize / 8
  | fixedBytes size => size
  | bytes | string => 1

theorem WellFormed.unit_pos {type : Leaf} (h : type.WellFormed) : 0 < type.unit := by
  cases type with
  | primitive type =>
    obtain ⟨hpos, hbits, _⟩ := h
    change 0 < type.bitSize / 8
    omega
  | fixedBytes size => exact h.1
  | bytes => decide
  | string => decide

theorem advances_read? (data : Bytes) (type : Leaf) :
    Advances data type.unit (type.read? data ·) := by
  intro cursor value next hcursor h
  cases type with
  | primitive type =>
    obtain ⟨field, hfield, _⟩ := read?_primitive_eq_some.mp h
    exact Input.advances_take? data _ hcursor hfield
  | fixedBytes size =>
    obtain ⟨field, hfield, _⟩ := read?_fixedBytes_eq_some.mp h
    exact Input.advances_take? data _ hcursor hfield
  | bytes =>
    obtain ⟨payload, hpayload, _⟩ := read?_bytes_eq_some.mp h
    obtain ⟨hnext, hlast⟩ := Input.advances_payload? data hcursor hpayload
    exact ⟨by change cursor + 1 ≤ next; omega, hlast⟩
  | string =>
    obtain ⟨payload, text, hpayload, _⟩ := read?_string_eq_some.mp h
    obtain ⟨hnext, hlast⟩ := Input.advances_payload? data hcursor hpayload
    exact ⟨by change cursor + 1 ≤ next; omega, hlast⟩

end Leaf

namespace Dimension

theorem advances_count? (data : Bytes) (dim : Dimension) :
    Advances data 0 (dim.count? data ·) := by
  intro cursor count next hcursor h
  cases dim with
  | fixed size =>
    cases h
    exact ⟨Nat.le_refl _, hcursor⟩
  | dynamic =>
    obtain ⟨hnext, hlast⟩ := Input.advances_count? data hcursor h
    exact ⟨by omega, hlast⟩

end Dimension

namespace Shape

/-- The least number of bytes that a reader is known to consume. -/
def unit : Shape → Nat
  | leaf type => type.unit
  | _ => 1

theorem advances_readElements? {data : Bytes} {unit : Nat} {read? : Nat → Option (Value × Nat)}
    (h : Advances data unit read?) (count : Nat) :
    Advances data (count * unit) (readElements? read? count) := by
  induction count with
  | zero =>
    intro cursor values next hcursor hread
    cases hread
    exact ⟨by omega, hcursor⟩
  | succ count ih =>
    intro cursor values next hcursor hread
    obtain ⟨first, middle, rest, hfirst, hrest, _⟩ := readElements?_succ_eq_some.mp hread
    obtain ⟨hmiddle, hinput⟩ := h hcursor hfirst
    obtain ⟨hnext, hlast⟩ := ih hinput hrest
    rw [Nat.succ_mul]
    exact ⟨by omega, hlast⟩

theorem advances_readComponents? {data : Bytes} {components : List (String × Shape)}
    (h : ∀ component ∈ components, Advances data 1 (component.2.read? data)) :
    Advances data components.length (readComponents? data components) := by
  induction components with
  | nil =>
    intro cursor values next hcursor hread
    rw [readComponents?] at hread
    cases hread
    exact ⟨Nat.le_refl _, hcursor⟩
  | cons component components ih =>
    intro cursor values next hcursor hread
    obtain ⟨first, middle, rest, hfirst, hrest, _⟩ := readComponents?_cons_eq_some.mp hread
    obtain ⟨hmiddle, hinput⟩ := h component (by simp) hcursor hfirst
    obtain ⟨hnext, hlast⟩ := ih (fun other hmem => h other (by simp [hmem])) hinput hrest
    rw [List.length_cons]
    exact ⟨by omega, hlast⟩

theorem WellFormed.unit_pos {shape : Shape} (hshape : shape.WellFormed) : 0 < shape.unit := by
  cases hshape with
  | leaf htype => exact htype.unit_pos
  | tuple => exact Nat.one_pos
  | array => exact Nat.one_pos

/-- Reading a well-formed shape moves forward and ends inside the input. -/
theorem WellFormed.advances {shape : Shape} (hshape : shape.WellFormed) (data : Bytes) :
    Advances data shape.unit (shape.read? data) := by
  induction hshape with
  | leaf htype =>
    intro cursor value next hcursor h
    exact Leaf.advances_read? data _ hcursor (by rwa [read?] at h)
  | @tuple components hne hcomponents ih =>
    intro cursor value next hcursor h
    obtain ⟨items, hitems, _⟩ := read?_tuple_eq_some.mp h
    have hlength : 0 < components.length := List.length_pos_iff.mpr hne
    have hforward : ∀ component ∈ components, Advances data 1 (component.2.read? data) :=
      fun component hmem => (ih component hmem).mono (hcomponents component hmem).unit_pos
    obtain ⟨hnext, hlast⟩ := advances_readComponents? hforward hcursor hitems
    exact ⟨by change cursor + 1 ≤ next; omega, hlast⟩
  | @array dim element hdim helement ih =>
    intro cursor value next hcursor h
    rw [read?] at h
    obtain ⟨count, start, items, hcount, hitems, _⟩ := readArray?_eq_some.mp h
    obtain ⟨hstart, hinput⟩ := Dimension.advances_count? data dim hcursor hcount
    obtain ⟨hnext, hlast⟩ := advances_readElements? ih count hinput hitems
    refine ⟨?_, hlast⟩
    change cursor + 1 ≤ next
    cases dim with
    | fixed size =>
      cases hcount
      have hsize : 0 < count * element.unit := Nat.mul_pos hdim helement.unit_pos
      omega
    | dynamic =>
      obtain ⟨hheader, _⟩ := Input.advances_count? data hcursor hcount
      omega

theorem WellFormed.advances_one {shape : Shape} (hshape : shape.WellFormed) (data : Bytes) :
    Advances data 1 (shape.read? data) :=
  (hshape.advances data).mono hshape.unit_pos

end Shape

/-- Where one reader succeeds, another does on every input that shares the bytes
consumed, with the same result. -/
def Local {α : Type} (data other : Bytes) (read? otherRead? : Nat → Option (α × Nat)) : Prop :=
  ∀ ⦃cursor a next⦄, cursor ≤ data.length → read? cursor = some (a, next) →
    data.take next <+: other → otherRead? cursor = some (a, next)

namespace Bytes

theorem take_prefix_of_le {data other : Bytes} {m n : Nat} (h : data.take n <+: other)
    (hle : m ≤ n) : data.take m <+: other := by
  have htake : data.take m = (data.take n).take m := by
    rw [List.take_take, Nat.min_eq_left hle]
  rw [htake]
  exact (List.take_prefix m _).trans h

/-- Inputs that share their first bytes have the same slices of them. -/
theorem slice_eq_of_prefix {data other : Bytes} {start n : Nat}
    (hinput : start + n ≤ data.length) (h : data.take (start + n) <+: other) :
    start + n ≤ other.length ∧ other.slice start n = data.slice start n := by
  have hlength := h.length_le
  rw [List.length_take, Nat.min_eq_left hinput] at hlength
  refine ⟨hlength, slice_congr ?_⟩
  have htake := List.prefix_iff_eq_take.mp h
  rw [List.length_take, Nat.min_eq_left hinput] at htake
  exact htake.symm

end Bytes

namespace Input

theorem local_take? (data other : Bytes) (n : Nat) :
    Local data other (take? data · n) (take? other · n) := by
  intro cursor bytes next _ h hshared
  obtain ⟨hinput, rfl, rfl⟩ := take?_eq_some.mp h
  obtain ⟨hother, hslice⟩ := Bytes.slice_eq_of_prefix hinput hshared
  exact take?_eq_some.mpr ⟨hother, hslice.symm, rfl⟩

theorem local_count? (data other : Bytes) : Local data other (count? data) (count? other) := by
  intro cursor count next _ h hshared
  obtain ⟨hinput, rfl, rfl⟩ := count?_eq_some.mp h
  obtain ⟨hother, hslice⟩ := Bytes.slice_eq_of_prefix hinput hshared
  exact count?_eq_some.mpr ⟨hother, by rw [hslice], rfl⟩

theorem local_payload? (data other : Bytes) :
    Local data other (payload? data) (payload? other) := by
  intro cursor payload next hcursor h hshared
  obtain ⟨count, start, hcount, hpayload⟩ := payload?_eq_some.mp h
  obtain ⟨_, hinput⟩ := advances_count? data hcursor hcount
  obtain ⟨hnext, _⟩ := advances_take? data count hinput hpayload
  have hheader := Bytes.take_prefix_of_le hshared (show start ≤ next by omega)
  exact payload?_eq_some.mpr ⟨count, start, local_count? data other hcursor hcount hheader,
    local_take? data other count hinput hpayload hshared⟩

end Input

namespace Leaf

theorem local_read? (data other : Bytes) (type : Leaf) :
    Local data other (type.read? data ·) (type.read? other ·) := by
  intro cursor value next hcursor h hshared
  cases type with
  | primitive type =>
    obtain ⟨field, hfield, hvalue⟩ := read?_primitive_eq_some.mp h
    exact read?_primitive_eq_some.mpr
      ⟨field, Input.local_take? data other _ hcursor hfield hshared, hvalue⟩
  | fixedBytes size =>
    obtain ⟨field, hfield, hvalue⟩ := read?_fixedBytes_eq_some.mp h
    exact read?_fixedBytes_eq_some.mpr
      ⟨field, Input.local_take? data other _ hcursor hfield hshared, hvalue⟩
  | bytes =>
    obtain ⟨payload, hpayload, hvalue⟩ := read?_bytes_eq_some.mp h
    exact read?_bytes_eq_some.mpr
      ⟨payload, Input.local_payload? data other hcursor hpayload hshared, hvalue⟩
  | string =>
    obtain ⟨payload, text, hpayload, hvalue⟩ := read?_string_eq_some.mp h
    exact read?_string_eq_some.mpr
      ⟨payload, text, Input.local_payload? data other hcursor hpayload hshared, hvalue⟩

end Leaf

namespace Dimension

theorem local_count? (data other : Bytes) (dim : Dimension) :
    Local data other (dim.count? data ·) (dim.count? other ·) := by
  cases dim with
  | fixed size =>
    intro cursor count next _ h _
    exact h
  | dynamic => exact Input.local_count? data other

end Dimension

namespace Shape

theorem local_readElements? {data other : Bytes} {unit : Nat}
    {read? otherRead? : Nat → Option (Value × Nat)} (hforward : Advances data unit read?)
    (h : Local data other read? otherRead?) (count : Nat) :
    Local data other (readElements? read? count) (readElements? otherRead? count) := by
  induction count with
  | zero =>
    intro cursor values next _ hread _
    exact hread
  | succ count ih =>
    intro cursor values next hcursor hread hshared
    obtain ⟨first, middle, rest, hfirst, hrest, hvalues⟩ := readElements?_succ_eq_some.mp hread
    obtain ⟨_, hinput⟩ := hforward hcursor hfirst
    obtain ⟨hnext, _⟩ := advances_readElements? hforward count hinput hrest
    have hfront := Bytes.take_prefix_of_le hshared (show middle ≤ next by omega)
    exact readElements?_succ_eq_some.mpr
      ⟨first, middle, rest, h hcursor hfirst hfront, ih hinput hrest hshared, hvalues⟩

theorem local_readComponents? {data other : Bytes} {components : List (String × Shape)}
    (hforward : ∀ component ∈ components, Advances data 1 (component.2.read? data))
    (h : ∀ component ∈ components,
      Local data other (component.2.read? data) (component.2.read? other)) :
    Local data other (readComponents? data components) (readComponents? other components) := by
  induction components with
  | nil =>
    intro cursor values next _ hread _
    rw [readComponents?] at hread ⊢
    exact hread
  | cons component components ih =>
    intro cursor values next hcursor hread hshared
    obtain ⟨first, middle, rest, hfirst, hrest, hvalues⟩ := readComponents?_cons_eq_some.mp hread
    have hforward' : ∀ component ∈ components, Advances data 1 (component.2.read? data) :=
      fun other hmem => hforward other (by simp [hmem])
    obtain ⟨_, hinput⟩ := hforward component (by simp) hcursor hfirst
    obtain ⟨hnext, _⟩ := advances_readComponents? hforward' hinput hrest
    have hfront := Bytes.take_prefix_of_le hshared (show middle ≤ next by omega)
    have hothers := ih hforward' (fun other hmem => h other (by simp [hmem]))
    exact readComponents?_cons_eq_some.mpr
      ⟨first, middle, rest, h component (by simp) hcursor hfirst hfront,
        hothers hinput hrest hshared, hvalues⟩

/-- What a well-formed shape is read as depends only on the bytes consumed. -/
theorem WellFormed.isLocal {shape : Shape} (hshape : shape.WellFormed) (data other : Bytes) :
    Local data other (shape.read? data) (shape.read? other) := by
  induction hshape with
  | leaf htype =>
    intro cursor value next hcursor h hshared
    rw [read?] at h ⊢
    exact Leaf.local_read? data other _ hcursor h hshared
  | @tuple components hne hcomponents ih =>
    intro cursor value next hcursor h hshared
    obtain ⟨items, hitems, hvalue⟩ := read?_tuple_eq_some.mp h
    have hforward : ∀ component ∈ components, Advances data 1 (component.2.read? data) :=
      fun component hmem => (hcomponents component hmem).advances_one data
    exact read?_tuple_eq_some.mpr
      ⟨items, local_readComponents? hforward ih hcursor hitems hshared, hvalue⟩
  | @array dim element hdim helement ih =>
    intro cursor value next hcursor h hshared
    rw [read?] at h ⊢
    obtain ⟨count, start, items, hcount, hitems, hvalue⟩ := readArray?_eq_some.mp h
    obtain ⟨_, hinput⟩ := Dimension.advances_count? data dim hcursor hcount
    obtain ⟨hnext, _⟩ := advances_readElements? (helement.advances data) count hinput hitems
    have hheader := Bytes.take_prefix_of_le hshared (show start ≤ next by omega)
    exact readArray?_eq_some.mpr ⟨count, start, items,
      Dimension.local_count? data other dim hcursor hcount hheader,
      local_readElements? (helement.advances data) ih count hinput hitems hshared, hvalue⟩

end Shape

end RecordCodec
