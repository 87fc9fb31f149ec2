import RecordCodec.Proofs.Program.Structure

/-!
# Names of operations

The errors of a run carry names of operations. A component of a tuple goes by its own
name, and what an array holds goes by the name of the array and a pair of brackets, with an
index between them for a fixed dimension.

This is so for fixed dimensions and for single dynamic ones. A run of several dynamic
dimensions is one field, and what it holds is named by one pair of brackets however long
the run is, while its loops have one pair more at each level. If the run holds leaves of a
fixed width, which the innermost loop reads without operations of their own, this shows
nowhere. If it holds anything else, names no longer follow: of two loops the inner one has
the name of the operation in it.
-/

namespace RecordCodec

namespace Shape

/-- The parts of a shape, itself included. -/
inductive Contains : (shape part : Shape) → Prop
  | root {shape : Shape} : Contains shape shape
  | component {components : List (String × Shape)} {component : String × Shape} {part : Shape}
      (hmem : component ∈ components) (h : Contains component.2 part) :
      Contains (.tuple components) part
  | element {dim : Dimension} {element part : Shape} (h : Contains element part) :
      Contains (.array dim element) part

/-- Several dynamic dimensions in a row hold leaves of a fixed width only. -/
def RunsOverLeaves (shape : Shape) : Prop :=
  ∀ element, shape.Contains (.array .dynamic (.array .dynamic element)) →
    element.isCounted = true ∨ element.fixedLeaf? ≠ none

variable {dim : Dimension} {element shape part : Shape}

theorem contains_array :
    (array dim element).Contains part ↔ part = array dim element ∨ element.Contains part := by
  constructor
  · intro h
    cases h with
    | root => exact .inl rfl
    | element h => exact .inr h
  · rintro (rfl | h)
    · exact .root
    · exact .element h

theorem Contains.inside (h : shape.Contains (array dim element)) : shape.Contains element := by
  generalize hpart : array dim element = part at h
  induction h with
  | root =>
    rw [← hpart]
    exact .element .root
  | component hmem _ ih => exact .component hmem (ih hpart)
  | element _ ih => exact .element (ih hpart)

theorem contains_enclose (shape : Shape) (dims : List Dimension) :
    (shape.enclose dims).Contains shape := by
  induction dims generalizing shape with
  | nil => exact .root
  | cons dim dims ih => exact (ih (array dim shape)).inside

theorem runsOverLeaves_leaf (type : Leaf) : (leaf type).RunsOverLeaves := by
  intro element h
  cases h

theorem runsOverLeaves_tuple {components : List (String × Shape)} :
    (tuple components).RunsOverLeaves ↔
      ∀ component ∈ components, component.2.RunsOverLeaves := by
  constructor
  · intro h component hmem element hpart
    exact h element (.component hmem hpart)
  · intro h element hpart
    cases hpart with
    | component hmem hpart => exact h _ hmem element hpart

/-- A dimension by which no run gets longer. -/
theorem runsOverLeaves_array (h : dim = .dynamic → element.isCounted = false) :
    (array dim element).RunsOverLeaves ↔ element.RunsOverLeaves := by
  constructor
  · intro hruns inner hpart
    exact hruns inner (.element hpart)
  · intro hruns inner hpart
    rcases contains_array.mp hpart with heq | hpart
    · cases heq
      cases h rfl
    · exact hruns inner hpart

theorem runsOverLeaves_enclose_leaf {type : Leaf} (htype : type.isDynamic = false)
    (levels : Nat) :
    ((leaf type).enclose (List.replicate levels .dynamic)).RunsOverLeaves := by
  induction levels with
  | zero => exact runsOverLeaves_leaf type
  | succ levels ih =>
    rw [enclose_replicate_succ]
    intro element hpart
    rcases contains_array.mp hpart with heq | hpart
    · obtain ⟨_, hrun⟩ := Shape.array.inj heq
      cases levels with
      | zero => cases hrun
      | succ levels =>
        rw [enclose_replicate_succ] at hrun
        obtain ⟨_, rfl⟩ := Shape.array.inj hrun
        cases levels with
        | zero => exact .inr (by simp [fixedLeaf?, htype])
        | succ levels => exact .inl (isCounted_enclose_dynamic _ levels)
    · exact ih element hpart

theorem not_runsOverLeaves_enclose (hrun : element.isCounted = false)
    (hwidth : element.fixedLeaf? = none) (levels : Nat) :
    ¬ (element.enclose (List.replicate (levels + 2) .dynamic)).RunsOverLeaves := by
  intro h
  have hpart := contains_enclose (array .dynamic (array .dynamic element))
    (List.replicate levels .dynamic)
  rcases h element hpart with hcounted | hleaf
  · rw [hrun] at hcounted
    cases hcounted
  · exact hleaf hwidth

end Shape

/-- The entry of the loop that stands so many levels further inside. -/
def Entry.inside (entry : Entry) : (levels : Nat) → Entry
  | 0 => entry
  | levels + 1 => Entry.inside ⟨entry.name ++ "[]", 0, 0⟩ levels

theorem Entry.length_name_inside (entry : Entry) (levels : Nat) :
    (entry.inside levels).name.length = entry.name.length + 2 * levels := by
  induction levels generalizing entry with
  | zero => rfl
  | succ levels ih =>
    have hbrackets : (entry.name ++ "[]").length = entry.name.length + 2 := by
      rw [String.length_append]
      rfl
    rw [inside, ih, hbrackets]
    omega

namespace Op

/-- The operation stands for the shape, under the name, and all operations in it are named
as compilation names them. -/
inductive Named : Op → Shape → (name : String) → Prop
  | leaf {op : Op} {type : Leaf} (hop : ∀ entry form body, op ≠ nested entry form body) :
      Named op (.leaf type) op.name
  | tuple {entry : Entry} {ops : List Op} {tail : Nat} {components : List (String × Shape)}
      (hlength : ops.length = components.length)
      (hops : ∀ (i : Nat) op component, ops[i]? = some op → components[i]? = some component →
        Named op component.2 component.1) :
      Named (nested entry .tuple ⟨ops, tail⟩) (.tuple components) entry.name
  | fixedArray {entry : Entry} {size : Nat} {ops : List Op} {tail : Nat} {element : Shape}
      (hsize : 0 < size) (hlength : ops.length = size)
      (hops : ∀ (i : Nat) op, ops[i]? = some op →
        Named op element (Shape.elementName entry.name i)) :
      Named (nested entry (.fixedArray size) ⟨ops, tail⟩) (.array (.fixed size) element)
        entry.name
  /-- Leaves of a fixed width have no operation of their own. -/
  | elements {entry : Entry} {read : ElementRead} {type : Leaf} {levels : Nat}
      (htype : type.isDynamic = false) :
      Named (counted (lengthPrefixed · (.elements read)) levels entry)
        ((Shape.leaf type).enclose (List.replicate (levels + 1) .dynamic)) entry.name
  /-- What the loops hold has one pair of brackets, however many loops there are. -/
  | loops {entry : Entry} {inner : Op} {tail levels : Nat} {element : Shape}
      (hrun : element.isCounted = false) (hwidth : element.fixedLeaf? = none)
      (hinner : Named inner element (entry.name ++ "[]")) :
      Named (counted (nested · .dynamicArray ⟨[inner], tail⟩) levels entry)
        (element.enclose (List.replicate (levels + 1) .dynamic)) entry.name

/-- What a loop runs is named by the loop and a pair of brackets. -/
def NamesElement (op : Op) : Prop :=
  ∀ entry body, op = nested entry .dynamicArray body →
    ∀ inner ∈ body.ops, inner.name = entry.name ++ "[]"

/-- What a fixed dimension holds is named by it and its indices. -/
def NamesIndices (op : Op) : Prop :=
  ∀ entry size body, op = nested entry (.fixedArray size) body →
    ∀ (i : Nat) inner, body.ops[i]? = some inner → inner.name = Shape.elementName entry.name i

variable {motive : Op → Prop} {operation : Entry → Op} {entry : Entry} {op : Op} {shape : Shape}
variable {name : String}

theorem all_eq_singleton (h : ∀ entry form body, op ≠ nested entry form body) :
    op.all = [op] := by
  cases op with
  | nested entry form body => exact absurd rfl (h entry form body)
  | _ => rfl

theorem name_counted (h : ∀ entry, (operation entry).name = entry.name) (levels : Nat)
    (entry : Entry) : (counted operation levels entry).name = entry.name := by
  cases levels with
  | zero => exact h entry
  | succ levels => rfl

/-- What holds of each level around an operation has to be shown of the operation only. -/
theorem forall_mem_all_counted (hlevel : ∀ entry levels, motive (nested entry .dynamicArray
      ⟨[counted operation levels ⟨entry.name ++ "[]", 0, 0⟩], 0⟩)) (levels : Nat) :
    (∀ inner ∈ (counted operation levels entry).all, motive inner) ↔
      ∀ inner ∈ (operation (entry.inside levels)).all, motive inner := by
  induction levels generalizing entry with
  | zero => rfl
  | succ levels ih =>
    rw [counted, forall_mem_all_nested, List.forall_mem_singleton, ih,
      and_iff_right (hlevel entry levels)]
    rfl

theorem Named.name_eq (h : op.Named shape name) : op.name = name := by
  cases h with
  | elements => exact name_counted (fun _ => rfl) _ _
  | loops => exact name_counted (fun _ => rfl) _ _
  | _ => rfl

/-- Where each operation of a scope goes with a component, so do all. -/
theorem forall_mem_scope {ops : List Op} {components : List (String × Shape)}
    {P : String × Shape → Prop} (hlength : ops.length = components.length)
    (h : ∀ (i : Nat) op component, ops[i]? = some op → components[i]? = some component →
      (motive op ↔ P component)) :
    (∀ op ∈ ops, motive op) ↔ ∀ component ∈ components, P component := by
  constructor
  · intro hops component hmem
    obtain ⟨i, hi, rfl⟩ := List.mem_iff_getElem.mp hmem
    have hop : i < ops.length := by omega
    exact (h i _ _ (List.getElem?_eq_getElem hop) (List.getElem?_eq_getElem hi)).mp
      (hops _ (List.getElem_mem hop))
  · intro hcomponents op hmem
    obtain ⟨i, hi, rfl⟩ := List.mem_iff_getElem.mp hmem
    have hcomponent : i < components.length := by omega
    exact (h i _ _ (List.getElem?_eq_getElem hi) (List.getElem?_eq_getElem hcomponent)).mpr
      (hcomponents _ (List.getElem_mem hcomponent))

theorem forall_mem_of_scope {ops : List Op} {components : List (String × Shape)}
    (hlength : ops.length = components.length)
    (h : ∀ (i : Nat) op component, ops[i]? = some op → components[i]? = some component →
      motive op) : ∀ op ∈ ops, motive op := by
  refine (forall_mem_scope (P := fun _ => True) hlength ?_).mpr fun _ _ => trivial
  intro i op component hop hcomponent
  exact iff_true_intro (h i op component hop hcomponent)

theorem Named.namesIndices (h : op.Named shape name) :
    ∀ inner ∈ op.all, inner.NamesIndices := by
  induction h with
  | leaf hop =>
    rw [all_eq_singleton hop, List.forall_mem_singleton]
    intro entry size body heq
    exact absurd heq (hop _ _ _)
  | tuple hlength hops ih =>
    exact forall_mem_all_nested.mpr ⟨by rintro _ _ _ ⟨⟩, forall_mem_of_scope hlength ih⟩
  | fixedArray hsize hlength hops ih =>
    refine forall_mem_all_nested.mpr ⟨?_, ?_⟩
    · rintro _ _ _ ⟨⟩ i inner hinner
      exact (hops i inner hinner).name_eq
    · intro op hmem
      obtain ⟨i, hi⟩ := List.mem_iff_getElem?.mp hmem
      exact ih i op hi
  | elements htype =>
    refine (forall_mem_all_counted (by rintro _ _ _ _ _ ⟨⟩) _).mpr ?_
    refine List.forall_mem_singleton.mpr ?_
    rintro _ _ _ ⟨⟩
  | loops hrun hwidth hinner ih =>
    refine (forall_mem_all_counted (by rintro _ _ _ _ _ ⟨⟩) _).mpr ?_
    exact forall_mem_all_nested.mpr ⟨by rintro _ _ _ ⟨⟩, List.forall_mem_singleton.mpr ih⟩

/-- The names in loops are right if and only if runs of dynamic dimensions are over leaves
of a fixed width. -/
theorem Named.namesElement_iff (h : op.Named shape name) :
    (∀ inner ∈ op.all, inner.NamesElement) ↔ shape.RunsOverLeaves := by
  have hlevel {operation : Entry → Op} (hname : ∀ entry, (operation entry).name = entry.name) :
      ∀ entry levels, (nested entry .dynamicArray
        ⟨[counted operation levels ⟨entry.name ++ "[]", 0, 0⟩], 0⟩).NamesElement := by
    rintro entry levels _ _ ⟨⟩
    exact List.forall_mem_singleton.mpr (name_counted hname _ _)
  induction h with
  | leaf hop =>
    rw [all_eq_singleton hop, List.forall_mem_singleton]
    exact iff_of_true (fun entry body heq => absurd heq (hop _ _ _))
      (Shape.runsOverLeaves_leaf _)
  | tuple hlength hops ih =>
    rw [forall_mem_all_nested, Shape.runsOverLeaves_tuple, and_iff_right (by rintro _ _ ⟨⟩)]
    exact forall_mem_scope hlength ih
  | @fixedArray entry size ops tail element hsize hlength hops ih =>
    rw [forall_mem_all_nested, Shape.runsOverLeaves_array (by simp),
      and_iff_right (by rintro _ _ ⟨⟩)]
    constructor
    · intro hnames
      have hfirst : 0 < ops.length := hlength ▸ hsize
      exact (ih 0 ops[0] (List.getElem?_eq_getElem hfirst)).mp (hnames _ (List.getElem_mem hfirst))
    · intro hruns op hmem
      obtain ⟨i, hi⟩ := List.mem_iff_getElem?.mp hmem
      exact (ih i op hi).mpr hruns
  | elements htype =>
    rw [forall_mem_all_counted (hlevel fun _ => rfl)]
    refine iff_of_true (List.forall_mem_singleton.mpr ?_)
      (Shape.runsOverLeaves_enclose_leaf htype _)
    rintro _ _ ⟨⟩
  | @loops entry inner tail levels element hrun hwidth hinner ih =>
    rw [forall_mem_all_counted (hlevel fun _ => rfl), forall_mem_all_nested,
      List.forall_mem_singleton]
    refine (and_congr_right fun _ => ih).trans ?_
    cases levels with
    | zero =>
      have hname : (nested entry .dynamicArray ⟨[inner], tail⟩).NamesElement := by
        rintro _ _ ⟨⟩
        exact List.forall_mem_singleton.mpr hinner.name_eq
      exact (and_iff_right hname).trans (Shape.runsOverLeaves_array fun _ => hrun).symm
    | succ levels =>
      -- The innermost loop has as many pairs of brackets as there are levels around it.
      have hname : ¬ (nested (entry.inside (levels + 1)) .dynamicArray
          ⟨[inner], tail⟩).NamesElement := by
        intro hnames
        have hlength := congrArg String.length (hnames _ _ rfl inner (List.mem_singleton_self _))
        rw [hinner.name_eq, String.length_append, String.length_append,
          Entry.length_name_inside] at hlength
        omega
      exact iff_of_false (fun h => hname h.1) (Shape.not_runsOverLeaves_enclose hrun hwidth levels)

end Op

/-- A pair of brackets, with an index in it for a fixed dimension. -/
def IsBracketGroup (text : String) : Prop :=
  text = "[]" ∨ ∃ i : Nat, text = "[" ++ toString i ++ "]"

theorem IsBracketGroup.append_ne {text : String} (h : IsBracketGroup text) (name : String) :
    name ++ text ≠ name := by
  intro hname
  have hempty : text.length = 0 := by
    have hlength := congrArg String.length hname
    rw [String.length_append] at hlength
    omega
  rcases h with rfl | ⟨i, rfl⟩
  · cases hempty
  · rw [String.length_append, String.length_append] at hempty
    have hbracket : "[".length = 1 := rfl
    omega

namespace Op

/-- The inner operation stands in the outer one, so many array dimensions deep. -/
inductive Inside : (outer : Op) → (depth : Nat) → (inner : Op) → Prop
  | here {op : Op} : Inside op 0 op
  | element {entry : Entry} {form : NestedShape} {body : Block Op} {op inner : Op} {depth : Nat}
      (harray : form ≠ .tuple) (hmem : op ∈ body.ops) (h : Inside op depth inner) :
      Inside (nested entry form body) (depth + 1) inner

/-- An array adds a pair of brackets to its name for what it holds. -/
theorem exists_group {entry : Entry} {form : NestedShape} {body : Block Op} {op : Op}
    (helement : (nested entry form body).NamesElement)
    (hindices : (nested entry form body).NamesIndices) (harray : form ≠ .tuple)
    (hmem : op ∈ body.ops) :
    ∃ group, IsBracketGroup group ∧ op.name = entry.name ++ group := by
  cases form with
  | tuple => exact absurd rfl harray
  | fixedArray size =>
    obtain ⟨i, hi⟩ := List.mem_iff_getElem?.mp hmem
    refine ⟨_, .inr ⟨i, rfl⟩, ?_⟩
    rw [hindices _ _ _ rfl i op hi, Shape.elementName]
    simp only [String.append_assoc]
  | dynamicArray => exact ⟨_, .inl rfl, helement _ _ rfl op hmem⟩

theorem Inside.exists_groups {outer inner : Op} {depth : Nat} (h : outer.Inside depth inner)
    (helement : ∀ op ∈ outer.all, op.NamesElement)
    (hindices : ∀ op ∈ outer.all, op.NamesIndices) :
    ∃ groups : List String, groups.length = depth ∧ (∀ group ∈ groups, IsBracketGroup group) ∧
      inner.name = outer.name ++ String.join groups := by
  induction h with
  | here => exact ⟨[], rfl, by simp, by simp⟩
  | @element entry form body op inner depth harray hmem h ih =>
    obtain ⟨helement, hinner⟩ := forall_mem_all_nested.mp helement
    obtain ⟨hindices, hinner'⟩ := forall_mem_all_nested.mp hindices
    obtain ⟨group, hgroup, hop⟩ := exists_group helement hindices harray hmem
    obtain ⟨groups, hdepth, hgroups, hname⟩ := ih (hinner op hmem) (hinner' op hmem)
    refine ⟨group :: groups, by rw [List.length_cons, hdepth],
      List.forall_mem_cons.mpr ⟨hgroup, hgroups⟩, ?_⟩
    rw [hname, hop, String.join_cons, String.append_assoc]
    rfl

mutual

theorem mem_all_trans {inner middle : Op} (h : inner ∈ middle.all) :
    (op : Op) → middle ∈ op.all → inner ∈ op.all
  | primitive type read, hmem => by
    rw [List.mem_singleton.mp hmem] at h
    exact h
  | fixedBytes read, hmem => by
    rw [List.mem_singleton.mp hmem] at h
    exact h
  | lengthPrefixed entry payload, hmem => by
    rw [List.mem_singleton.mp hmem] at h
    exact h
  | nested entry form ⟨ops, tail⟩, hmem => by
    rw [all] at hmem ⊢
    rcases List.mem_cons.mp hmem with rfl | hmem
    · rw [all] at h
      exact h
    · exact List.mem_cons_of_mem _ (mem_allIn_trans h ops hmem)

theorem mem_allIn_trans {inner middle : Op} (h : inner ∈ middle.all) :
    (ops : List Op) → middle ∈ allIn ops → inner ∈ allIn ops
  | [], hmem => by cases hmem
  | op :: ops, hmem => by
    rw [allIn] at hmem ⊢
    rcases List.mem_append.mp hmem with hmem | hmem
    · exact List.mem_append_left _ (mem_all_trans h op hmem)
    · exact List.mem_append_right _ (mem_allIn_trans h ops hmem)

end

end Op

namespace Program

/-- The program stands for the shape, which is that of a root, under the name. -/
inductive Named : Program → Shape → (name : String) → Prop
  | tuple {name : String} {ops : List Op} {tail : Nat} {components : List (String × Shape)}
      (hlength : ops.length = components.length)
      (hops : ∀ (i : Nat) op component, ops[i]? = some op → components[i]? = some component →
        op.Named component.2 component.1) :
      Named ⟨name, .tuple, ⟨ops, tail⟩⟩ (.tuple components) name
  /-- A single dynamic dimension is a loop, whatever its element is. -/
  | array {name : String} {inner : Op} {tail : Nat} {element : Shape}
      (hrun : element.isCounted = false) (hinner : inner.Named element (name ++ "[]")) :
      Named ⟨name, .single, ⟨[.nested ⟨name, 0, 0⟩ .dynamicArray ⟨[inner], tail⟩], 0⟩⟩
        (.array .dynamic element) name
  | single {name : String} {op : Op} {tail : Nat} {shape : Shape} (hop : op.Named shape name) :
      Named ⟨name, .single, ⟨[op], tail⟩⟩ shape name

/-- The names of all operations follow array depth: each array dimension adds a pair of
brackets to the name of what it is a dimension of. -/
structure NamesFollowDepth (program : Program) : Prop where
  dynamicArray : ∀ entry body, .nested entry .dynamicArray body ∈ program.allOps →
    ∀ op ∈ body.ops, op.name = entry.name ++ "[]"
  fixedArray : ∀ entry size body, .nested entry (.fixedArray size) body ∈ program.allOps →
    ∀ (i : Nat) op, body.ops[i]? = some op → op.name = Shape.elementName entry.name i
  distinct : ∀ entry form body, .nested entry form body ∈ program.allOps → form ≠ .tuple →
    ∀ op ∈ body.ops, op.name ≠ entry.name
  groups : ∀ field ∈ program.allOps, ∀ depth op, field.Inside depth op →
    ∃ groups : List String, groups.length = depth ∧ (∀ group ∈ groups, IsBracketGroup group) ∧
      op.name = field.name ++ String.join groups

variable {program : Program} {shape : Shape} {name : String}

theorem Named.namesIndices (h : program.Named shape name) :
    ∀ inner ∈ program.allOps, inner.NamesIndices := by
  rw [forall_mem_allOps]
  cases h with
  | tuple hlength hops =>
    exact Op.forall_mem_of_scope hlength fun i op component hop hcomponent =>
      (hops i op component hop hcomponent).namesIndices
  | array hrun hinner =>
    refine List.forall_mem_singleton.mpr (Op.forall_mem_all_nested.mpr ⟨by rintro _ _ _ ⟨⟩, ?_⟩)
    exact List.forall_mem_singleton.mpr hinner.namesIndices
  | single hop => exact List.forall_mem_singleton.mpr hop.namesIndices

theorem Named.namesElement_iff (h : program.Named shape name) :
    (∀ inner ∈ program.allOps, inner.NamesElement) ↔ shape.RunsOverLeaves := by
  rw [forall_mem_allOps]
  cases h with
  | tuple hlength hops =>
    rw [Shape.runsOverLeaves_tuple]
    exact Op.forall_mem_scope hlength fun i op component hop hcomponent =>
      (hops i op component hop hcomponent).namesElement_iff
  | @array name inner tail element hrun hinner =>
    have hname : (Op.nested ⟨name, 0, 0⟩ .dynamicArray ⟨[inner], tail⟩).NamesElement := by
      rintro _ _ ⟨⟩
      exact List.forall_mem_singleton.mpr hinner.name_eq
    rw [List.forall_mem_singleton, Op.forall_mem_all_nested, and_iff_right hname,
      List.forall_mem_singleton, Shape.runsOverLeaves_array fun _ => hrun]
    exact hinner.namesElement_iff
  | single hop =>
    rw [List.forall_mem_singleton]
    exact hop.namesElement_iff

/-- Names follow array depth if loops name what they run as they should. -/
theorem Named.namesFollowDepth_iff (h : program.Named shape name) :
    program.NamesFollowDepth ↔ shape.RunsOverLeaves := by
  have hindices := h.namesIndices
  rw [← h.namesElement_iff]
  constructor
  · rintro hnames _ hmem entry body rfl
    exact hnames.dynamicArray entry body hmem
  · intro helement
    refine ⟨?dynamicArray, ?fixedArray, ?distinct, ?groups⟩
    case dynamicArray => exact fun entry body hmem => helement _ hmem entry body rfl
    case fixedArray => exact fun entry size body hmem => hindices _ hmem entry size body rfl
    case distinct =>
      intro entry form body hmem harray op hop
      obtain ⟨group, hgroup, hname⟩ :=
        Op.exists_group (helement _ hmem) (hindices _ hmem) harray hop
      rw [hname]
      exact hgroup.append_ne entry.name
    case groups =>
      intro field hfield depth op hop
      exact hop.exists_groups
        (fun inner hmem => helement inner (Op.mem_allIn_trans hmem _ hfield))
        (fun inner hmem => hindices inner (Op.mem_allIn_trans hmem _ hfield))

end Program

namespace Shape

/-- Wherever a field is placed, its operation stands for the shape under the name. -/
def NamedIn (shape : Shape) (name : String) (field : Field) : Prop :=
  ∀ used slot window, ((field.assign used).1.compile slot window).1.Named shape name

theorem unrollAll_eq_map (components : List (String × Shape)) :
    unrollAll components = components.map fun component =>
      component.2.unrollIn 0 component.1 := by
  induction components with
  | nil => rfl
  | cons component components ih => rw [unrollAll, ih, List.map_cons]

theorem named_unrollAll {components : List (String × Shape)}
    (h : ∀ component ∈ components,
      component.2.NamedIn component.1 (component.2.unrollIn 0 component.1))
    {i : Nat} {op : Op} {component : String × Shape}
    (hop : (Field.compileFrom (Field.assignFrom (unrollAll components) 0) 0 {}).1[i]? = some op)
    (hcomponent : components[i]? = some component) : op.Named component.2 component.1 := by
  obtain ⟨field, hfield, used, slot, window, rfl⟩ := Field.exists_getElem?_of_compileFrom hop
  rw [unrollAll_eq_map, List.getElem?_map, hcomponent] at hfield
  cases hfield
  exact h component (List.mem_of_getElem? hcomponent) used slot window

/-- The loops of a run are named from outside, what they hold from the field. -/
theorem namedIn_collapse {shape : Shape} {element : String → Field}
    (hrun : shape.isCounted = false) (h : ∀ name, shape.NamedIn name (element name))
    (hread : ∀ name, (element name).elementRead?.map (·.leaf.type) = shape.fixedLeaf?)
    (run : Nat) (name : String) :
    (shape.enclose (List.replicate run .dynamic)).NamedIn name (collapse run name element) := by
  cases run with
  | zero => exact h name
  | succ extra =>
    intro used slot window
    have hwidth := hread (name ++ "[]")
    rw [← Field.elementRead?_assign _ 0] at hwidth
    show (Op.counted (Field.compileElement [((element (name ++ "[]")).assign 0).1]) extra
      ⟨name, slot, window.runBytes⟩).Named _ name
    cases hcase : ((element (name ++ "[]")).assign 0).1.elementRead? with
    | some read =>
      rw [hcase] at hwidth
      obtain ⟨rfl, htype⟩ := fixedLeaf?_eq_some.mp hwidth.symm
      have hloop : Field.compileElement [((element (name ++ "[]")).assign 0).1] =
          (.lengthPrefixed · (.elements read)) := by
        funext entry
        rw [Field.compileElement, hcase]
      rw [hloop]
      exact .elements htype
    | none =>
      rw [hcase] at hwidth
      have hloop : Field.compileElement [((element (name ++ "[]")).assign 0).1] =
          (.nested · .dynamicArray (Field.compileScope [((element (name ++ "[]")).assign 0).1])) := by
        funext entry
        rw [Field.compileElement, hcase, Field.compileScope_singleton]
      rw [hloop, Field.compileScope_singleton]
      exact .loops hrun hwidth.symm
        (h (name ++ "[]") 0 0 {})

theorem WellFormed.namedIn_unrollIn {shape : Shape} (hshape : shape.WellFormed) (run : Nat)
    (name : String) :
    (shape.enclose (List.replicate run .dynamic)).NamedIn name (shape.unrollIn run name) := by
  induction hshape generalizing run name with
  | @leaf type htype =>
    refine namedIn_collapse rfl ?_ (fun name => by cases type <;> rfl) run name
    intro name used slot window
    cases type <;> exact .leaf (by rintro _ _ _ ⟨⟩)
  | @tuple components hne hcomponents ih =>
    refine namedIn_collapse rfl ?_ (fun name => rfl) run name
    intro name used slot window
    exact .tuple (length_scope_unrollAll components)
      fun i op component => named_unrollAll fun component hmem => ih component hmem 0 component.1
  | @array dim element hdim helement ih =>
    cases dim with
    | fixed size =>
      refine namedIn_collapse rfl ?_ (fun name => rfl) run name
      intro name used slot window
      refine .fixedArray hdim ?_ ?_
      · simp [Field.length_compileFrom, Field.length_assignFrom]
      · intro i op hop
        obtain ⟨field, hfield, used, slot, window, rfl⟩ :=
          Field.exists_getElem?_of_compileFrom hop
        rw [List.getElem?_map] at hfield
        obtain ⟨j, hj, rfl⟩ := Option.map_eq_some_iff.mp hfield
        obtain ⟨hi, rfl⟩ := List.getElem?_eq_some_iff.mp hj
        rw [List.getElem_range]
        exact ih 0 (elementName name i) used slot window
    | dynamic => exact ih (run + 1) name

/-- The operations of the program of a well-formed shape are named as fields are. -/
theorem WellFormed.named_program {shape : Shape} (hshape : shape.WellFormed) (name : String) :
    (shape.program name).Named shape name := by
  have hop : shape.NamedIn name (shape.unroll name) := hshape.namedIn_unrollIn 0 name
  cases hshape with
  | @leaf type htype => cases type <;> exact .single (hop 0 0 {})
  | @tuple components hne hcomponents =>
    exact .tuple (length_scope_unrollAll components) fun i op component =>
      named_unrollAll fun component hmem =>
        (hcomponents component hmem).namedIn_unrollIn 0 component.1
  | @array dim element hdim helement =>
    cases dim with
    | fixed size => exact .single (hop 0 0 {})
    | dynamic =>
      rw [unroll, unrollIn] at hop
      rw [program, unroll, unrollIn]
      cases hrun : element.isCounted with
      | true =>
        have hkind := kind_unrollIn_succ element 0 name
        have hlevels := extraLevels_ne_zero hrun name
        rw [← Field.kind_assign _ 0] at hkind
        rw [← Field.extraLevels_assign _ 0] at hlevels
        rw [ofRoot_of_extraLevels hkind hlevels, Field.compileScope_singleton]
        exact .single (hop 0 0 {})
      | false =>
        have hinner := helement.namedIn_unrollIn 0 (name ++ "[]") 0 0 {}
        rw [unrollIn_of_not_isCounted hrun]
        exact .array hrun hinner

end Shape

namespace Codec

variable {schema : Schema} {options : Options} {codec : Codec}

/-- All names of a compiled program are those of its schema's fields with brackets behind
them. For fixed dimensions they follow array depth in any case. For all dimensions they do
if and only if several dynamic dimensions in a row hold leaves of a fixed width only. -/
theorem names_follow_depth_iff (h : compile schema options = .ok codec) :
    codec.program.Named codec.shape schema.name ∧
      (∀ entry size body, .nested entry (.fixedArray size) body ∈ codec.program.allOps →
        ∀ (i : Nat) op, body.ops[i]? = some op → op.name = Shape.elementName entry.name i) ∧
      (codec.program.NamesFollowDepth ↔ codec.shape.RunsOverLeaves) := by
  have hshape := wellFormed_shape h
  obtain ⟨_, _, hprogram⟩ := compile_eq_ok h
  have hnamed := hshape.named_program schema.name
  rw [← hprogram] at hnamed
  exact ⟨hnamed, fun entry size body hmem => hnamed.namesIndices _ hmem entry size body rfl,
    hnamed.namesFollowDepth_iff⟩

/-- Pairs of texts, as many as a header counts, and numbers in three dynamic dimensions, of
which the innermost loop reads the last. -/
theorem names_follow_depth_pairs_and_numbers : ∃ codec,
    compile ⟨"r", "tuple", [⟨"m", "string[2][]", []⟩, ⟨"n", "uint8[][][]", []⟩]⟩ {} = .ok codec ∧
      codec.program.NamesFollowDepth ∧
      ∃ field second, codec.program.body.ops[0]? = some field ∧ field.name = "m" ∧
        field.Inside 2 second ∧ second.name = "m" ++ "[]" ++ "[1]" := by
  let pairs : Shape := .array .dynamic (.array (.fixed 2) (.leaf .string))
  let numbers : Shape := (Shape.leaf (.primitive (.uint 8))).enclose (List.replicate 3 .dynamic)
  let shape : Shape := .tuple [("m", pairs), ("n", numbers)]
  have hcodec : compile
      ⟨"r", "tuple", [⟨"m", "string[2][]", []⟩, ⟨"n", "uint8[][][]", []⟩]⟩ {} =
        .ok ⟨"r", shape, [⟨"R", [⟨"m", "string[2][]"⟩, ⟨"n", "uint8[][][]"⟩]⟩],
          shape.program "r"⟩ := rfl
  have hpairs : pairs.RunsOverLeaves :=
    (Shape.runsOverLeaves_array fun _ => rfl).mpr
      ((Shape.runsOverLeaves_array (by simp)).mpr (Shape.runsOverLeaves_leaf _))
  have hnumbers : numbers.RunsOverLeaves := Shape.runsOverLeaves_enclose_leaf rfl 3
  have hshape : shape.RunsOverLeaves := Shape.runsOverLeaves_tuple.mpr (by simp [hpairs, hnumbers])
  obtain ⟨_, _, hnames⟩ := names_follow_depth_iff hcodec
  let first : Op := .lengthPrefixed ⟨"m[][0]", 0, 0⟩ .text
  let second : Op := .lengthPrefixed ⟨"m[][1]", 1, 0⟩ .text
  let pair : Op := .nested ⟨"m[]", 0, 0⟩ (.fixedArray 2) ⟨[first, second], 0⟩
  let field : Op := .nested ⟨"m", 0, 0⟩ .dynamicArray ⟨[pair], 0⟩
  have hinside : field.Inside 2 second :=
    .element (by simp) (List.mem_singleton_self pair)
      (.element (by simp) (List.mem_cons_of_mem first (List.mem_singleton_self second)) .here)
  exact ⟨_, hcodec, hnames.mpr hshape, field, second, rfl, rfl, hinside, rfl⟩

/-- Texts in two dynamic dimensions. Both the inner loop and the texts are named `m[]`, so
that a wrong count of texts and a wrong length of one are reported alike. -/
theorem names_lost_in_rows_of_texts : ∃ codec,
    compile ⟨"m", "string[][]", []⟩ {} = .ok codec ∧ ¬ codec.program.NamesFollowDepth ∧
      (∃ entry body, .nested entry .dynamicArray body ∈ codec.program.allOps ∧
        ∃ op ∈ body.ops, entry.name = "m[]" ∧ op.name = "m[]") ∧
      codec.decode [0, 0, 0, 1, 0, 0, 0, 5] = .error (.lengthOverflow "m[]" 5) ∧
      codec.decode [0, 0, 0, 1, 0, 0, 0, 1, 0, 0, 0, 5] = .error (.lengthOverflow "m[]" 5) := by
  let text : Op := .lengthPrefixed ⟨"m[]", 0, 0⟩ .text
  let row : Op := .nested ⟨"m[]", 0, 0⟩ .dynamicArray ⟨[text], 0⟩
  let rows : Op := .nested ⟨"m", 0, 0⟩ .dynamicArray ⟨[row], 0⟩
  let shape : Shape := .array .dynamic (.array .dynamic (.leaf .string))
  have hcodec : compile ⟨"m", "string[][]", []⟩ {} =
      .ok ⟨"m", shape, [⟨"M", [⟨"m", "string[][]"⟩]⟩], ⟨"m", .single, ⟨[rows], 0⟩⟩⟩ := rfl
  have hmem : row ∈ Program.allOps ⟨"m", .single, ⟨[rows], 0⟩⟩ := by
    simp [Program.allOps, Op.allIn, Op.all, rows, row]
  have hname : ¬ "m[]" = "m[]" ++ "[]" := by decide
  refine ⟨_, hcodec, ?_, ⟨_, _, hmem, text, List.mem_singleton_self _, rfl, rfl⟩, rfl, rfl⟩
  intro hnames
  exact hname (hnames.dynamicArray _ _ hmem text (List.mem_singleton_self _))

end Codec

end RecordCodec
