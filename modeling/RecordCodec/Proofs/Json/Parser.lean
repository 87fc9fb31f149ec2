import Mathlib.Data.List.DropRight
import RecordCodec.Proofs.Json.Token

/-!
# JSON text and its values

The grammar of JSON text, and that the reader keeps to it in both directions: a text is
read as a value exactly if it spells the value, with nothing but blanks around it. Every
value and every part of one is at least a character long, so twice the length of the text
is fuel enough.
-/

namespace RecordCodec

namespace Json

/-- What a stretch of text stands for: a value, or what is left of an array behind its
opening bracket, or of an object. -/
inductive Part where
  | value (json : Json)
  | items (items : List Json)
  | members (members : Option (List (String × Json)))

def Blank (text : List Char) : Prop := ∀ c ∈ text, isBlank c

/-- The value of a string, from its content. -/
def ofContent (content : Option (List Char)) : Json :=
  (content.map fun cs => string (String.ofList cs)).getD .unreadable

/-- The value of an object, from its members. -/
def ofMembers (members : Option (List (String × Json))) : Json :=
  (members.map object).getD .unreadable

/-- A member, from the content of its name. -/
def member (content : Option (List Char)) (value : Json) : Option (String × Json) :=
  content.map fun cs => (String.ofList cs, value)

/-- Texts and what they spell. Blanks may stand before every token. -/
inductive Spelled : Part → List Char → Prop
  | blank {c : Char} {json : Json} {text : List Char} (hc : isBlank c)
      (h : Spelled (.value json) text) : Spelled (.value json) (c :: text)
  | word {word : List Char} {json : Json} (h : (word, json) ∈ words) : Spelled (.value json) word
  | number {literal : List Char} {json : Json} (h : SpellsNumber json literal) :
      Spelled (.value json) literal
  | string {content : Option (List Char)} {text : List Char} (h : SpellsString content text) :
      Spelled (.value (ofContent content)) ('"' :: (text ++ ['"']))
  | emptyArray {blanks : List Char} (hblanks : Blank blanks) :
      Spelled (.value (.array [])) ('[' :: (blanks ++ [']']))
  | array {items : List Json} {text : List Char} (h : Spelled (.items items) text) :
      Spelled (.value (.array items)) ('[' :: text)
  | emptyObject {blanks : List Char} (hblanks : Blank blanks) :
      Spelled (.value (.object [])) ('{' :: (blanks ++ ['}']))
  | object {members : Option (List (String × Json))} {text : List Char}
      (h : Spelled (.members members) text) : Spelled (.value (ofMembers members)) ('{' :: text)
  | lastItem {item : Json} {text blanks : List Char} (h : Spelled (.value item) text)
      (hblanks : Blank blanks) : Spelled (.items [item]) (text ++ (blanks ++ [']']))
  | item {item : Json} {items : List Json} {text blanks rest : List Char}
      (h : Spelled (.value item) text) (hblanks : Blank blanks)
      (hrest : Spelled (.items items) rest) :
      Spelled (.items (item :: items)) (text ++ (blanks ++ ',' :: rest))
  | lastMember {content : Option (List Char)} {value : Json}
      {before name between text blanks : List Char} (hbefore : Blank before)
      (hname : SpellsString content name) (hbetween : Blank between)
      (h : Spelled (.value value) text) (hblanks : Blank blanks) :
      Spelled (.members ((member content value).map ([·])))
        (before ++ '"' :: (name ++ '"' :: (between ++ ':' :: (text ++ (blanks ++ ['}'])))))
  | member {content : Option (List Char)} {value : Json}
      {members : Option (List (String × Json))} {before name between text blanks rest : List Char}
      (hbefore : Blank before) (hname : SpellsString content name) (hbetween : Blank between)
      (h : Spelled (.value value) text) (hblanks : Blank blanks)
      (hrest : Spelled (.members members) rest) :
      Spelled (.members ((member content value).bind fun member => members.map (member :: ·)))
        (before ++ '"' :: (name ++ '"' :: (between ++ ':' :: (text ++ (blanks ++ ',' :: rest)))))

/-- The text is read as the part, and what follows it is left. A number has to end there. -/
def Part.Reads : Part → (fuel : Nat) → (text : List Char) → Prop
  | .value json, fuel, text =>
    ∀ rest, Ends rest → value? fuel (text ++ rest) = some (json, rest)
  | .items list, fuel, text => ∀ rest, items? fuel (text ++ rest) = some (list, rest)
  | .members found, fuel, text => ∀ rest, members? fuel (text ++ rest) = some (found, rest)

theorem Blank.skipBlanks_append {blanks : List Char} (hblanks : Blank blanks) {c : Char}
    (hc : isBlank c = false) (rest : List Char) : skipBlanks (blanks ++ c :: rest) = c :: rest := by
  rw [skipBlanks, List.dropWhile_append_of_pos hblanks, List.dropWhile_cons_of_neg (by simp [hc])]

theorem exists_blanks (text : List Char) :
    ∃ blanks, text = blanks ++ skipBlanks text ∧ Blank blanks :=
  ⟨text.takeWhile isBlank, List.takeWhile_append_dropWhile.symm,
    List.all_eq_true.mp List.all_takeWhile⟩

theorem skipBlanks_skipBlanks (text : List Char) : skipBlanks (skipBlanks text) = skipBlanks text :=
  List.dropWhile_idempotent _ text

theorem value?_congr {text other : List Char} (h : skipBlanks text = skipBlanks other)
    (fuel : Nat) : value? fuel text = value? fuel other := by
  cases fuel with
  | zero => rfl
  | succ fuel => rw [value?, value?, h]

theorem items?_congr {text other : List Char} (h : skipBlanks text = skipBlanks other)
    (fuel : Nat) : items? fuel text = items? fuel other := by
  cases fuel with
  | zero => rfl
  | succ fuel => rw [items?, items?, value?_congr h]

theorem members?_congr {text other : List Char} (h : skipBlanks text = skipBlanks other)
    (fuel : Nat) : members? fuel text = members? fuel other := by
  cases fuel with
  | zero => rfl
  | succ fuel => rw [members?, members?, h]

theorem ends_nil : Ends [] := by
  intro c hc
  cases hc

/-- No number reads on behind the part of an array or an object. -/
theorem ends_cons {c : Char} (hc : c = ',' ∨ c = ']' ∨ c = '}') (rest : List Char) :
    Ends (c :: rest) := by
  intro d hd
  cases hd
  rcases hc with rfl | rfl | rfl <;> decide

theorem Blank.ends {blanks rest : List Char} (hblanks : Blank blanks) (hrest : Ends rest) :
    Ends (blanks ++ rest) := by
  cases blanks with
  | nil => exact hrest
  | cons blank blanks =>
    intro c hc
    have hblank : isBlank c = true := by
      cases hc
      exact hblanks blank (by simp)
    simp only [isBlank, Bool.or_eq_true, beq_iff_eq] at hblank
    rcases hblank with ((rfl | rfl) | rfl) | rfl <;> decide

section

variable {text rest : List Char} {fuel : Nat}

/-- The items of an array are not read from its end. -/
theorem items?_end (fuel : Nat) (text : List Char) : items? fuel (']' :: text) = none := by
  cases fuel with
  | zero => rfl
  | succ fuel =>
    cases fuel with
    | zero => rfl
    | succ fuel => rfl

theorem value?_array {items : List Json} (h : items? fuel text = some (items, rest)) :
    value? (fuel + 1) ('[' :: text) = some (.array items, rest) := by
  have hitems : items? fuel (skipBlanks text) = some (items, rest) := by
    rw [items?_congr (skipBlanks_skipBlanks text), h]
  have htoken : skipBlanks ('[' :: text) = '[' :: text := rfl
  simp only [value?, htoken]
  split
  · rename_i htext
    rw [htext, items?_end] at hitems
    cases hitems
  · rw [hitems]
    rfl

/-- The members of an object are not read from its end. -/
theorem members?_end (fuel : Nat) (text : List Char) : members? fuel ('}' :: text) = none := by
  cases fuel with
  | zero => rfl
  | succ fuel => rfl

theorem value?_object {members : Option (List (String × Json))}
    (h : members? fuel text = some (members, rest)) :
    value? (fuel + 1) ('{' :: text) = some (ofMembers members, rest) := by
  have hmembers : members? fuel (skipBlanks text) = some (members, rest) := by
    rw [members?_congr (skipBlanks_skipBlanks text), h]
  have htoken : skipBlanks ('{' :: text) = '{' :: text := rfl
  simp only [value?, htoken]
  split
  · rename_i htext
    rw [htext, members?_end] at hmembers
    cases hmembers
  · rw [hmembers]
    rfl

theorem value?_string {content : Option (List Char)} (h : stringTail? text = some (content, rest)) :
    value? (fuel + 1) ('"' :: text) = some (ofContent content, rest) := by
  have htoken : skipBlanks ('"' :: text) = '"' :: text := rfl
  simp only [value?, htoken, h]
  rfl

theorem value?_emptyArray {blanks : List Char} (hblanks : Blank blanks) :
    value? (fuel + 1) ('[' :: (blanks ++ ']' :: rest)) = some (.array [], rest) := by
  have htoken : skipBlanks ('[' :: (blanks ++ ']' :: rest)) = '[' :: (blanks ++ ']' :: rest) := rfl
  simp only [value?, htoken, hblanks.skipBlanks_append (c := ']') rfl rest]

theorem value?_emptyObject {blanks : List Char} (hblanks : Blank blanks) :
    value? (fuel + 1) ('{' :: (blanks ++ '}' :: rest)) = some (.object [], rest) := by
  have htoken : skipBlanks ('{' :: (blanks ++ '}' :: rest)) = '{' :: (blanks ++ '}' :: rest) := rfl
  simp only [value?, htoken, hblanks.skipBlanks_append (c := '}') rfl rest]

theorem length_pos_of_mem_words {word : List Char} {json : Json} (h : (word, json) ∈ words) :
    0 < word.length := by
  simp only [words, List.mem_cons, List.not_mem_nil, or_false, Prod.mk.injEq] at h
  rcases h with ⟨rfl, _⟩ | ⟨rfl, _⟩ | ⟨rfl, _⟩ <;> decide

theorem value?_word {word : List Char} {json : Json} (h : (word, json) ∈ words) (rest : List Char) :
    value? (fuel + 1) (word ++ rest) = some (json, rest) := by
  simp only [words, List.mem_cons, List.not_mem_nil, or_false, Prod.mk.injEq] at h
  rcases h with ⟨rfl, rfl⟩ | ⟨rfl, rfl⟩ | ⟨rfl, rfl⟩ <;> rfl

section

variable {blanks others : List Char} (hblanks : Blank blanks)

include hblanks

theorem items?_last {item : Json} (h : value? fuel text = some (item, blanks ++ ']' :: rest)) :
    items? (fuel + 1) text = some ([item], rest) := by
  simp only [items?, h, Option.bind_eq_bind, Option.bind_some,
    hblanks.skipBlanks_append (c := ']') rfl rest]

theorem items?_cons {item : Json} {items : List Json}
    (h : value? fuel text = some (item, blanks ++ ',' :: others))
    (hothers : items? fuel others = some (items, rest)) :
    items? (fuel + 1) text = some (item :: items, rest) := by
  simp only [items?, h, Option.bind_eq_bind, Option.bind_some,
    hblanks.skipBlanks_append (c := ',') rfl others, hothers]

variable {content : Option (List Char)} {value : Json} {before name between : List Char}
variable (hbefore : Blank before) (hname : SpellsString content name) (hbetween : Blank between)

include hbefore hname hbetween

theorem members?_last (h : value? fuel text = some (value, blanks ++ '}' :: rest)) :
    members? (fuel + 1) (before ++ '"' :: (name ++ '"' :: (between ++ ':' :: text))) =
      some ((member content value).map ([·]), rest) := by
  simp only [members?, hbefore.skipBlanks_append (c := '"') rfl, hname.stringTail?,
    hbetween.skipBlanks_append (c := ':') rfl, h, Option.bind_eq_bind, Option.bind_some,
    hblanks.skipBlanks_append (c := '}') rfl rest]
  rfl

theorem members?_cons {members : Option (List (String × Json))}
    (h : value? fuel text = some (value, blanks ++ ',' :: others))
    (hothers : members? fuel others = some (members, rest)) :
    members? (fuel + 1) (before ++ '"' :: (name ++ '"' :: (between ++ ':' :: text))) =
      some ((member content value).bind fun member => members.map (member :: ·), rest) := by
  simp only [members?, hbefore.skipBlanks_append (c := '"') rfl, hname.stringTail?,
    hbetween.skipBlanks_append (c := ':') rfl, h, Option.bind_eq_bind, Option.bind_some,
    hblanks.skipBlanks_append (c := ',') rfl others, hothers]
  rfl

end

/-- A number is not mistaken for anything else. -/
theorem value?_number {c : Char} (hc : c = '-' ∨ c.isDigit) :
    value? (fuel + 1) (c :: text) = number? (c :: text) := by
  have hne : ∀ d, d ≠ '-' → d.isDigit = false → c ≠ d := by
    rintro d hd hdigit rfl
    rcases hc with hc | hc
    · exact hd hc
    · rw [hdigit] at hc
      cases hc
  have hblank : isBlank c = false := by
    simp [isBlank, hne ' ' (by decide) rfl, hne '\n' (by decide) rfl, hne '\t' (by decide) rfl,
      hne '\r' (by decide) rfl]
  have htoken : skipBlanks (c :: text) = c :: text :=
    List.dropWhile_cons_of_neg (by simp [hblank])
  have hword : word? (c :: text) = none := by
    simp [word?, words, List.isPrefixOf?, (hne 'n' (by decide) rfl).symm,
      (hne 't' (by decide) rfl).symm, (hne 'f' (by decide) rfl).symm]
  simp only [value?, htoken]
  split
  · rename_i hquote
    cases hquote
    exact absurd rfl (hne '"' (by decide) rfl)
  · rename_i hbracket
    cases hbracket
    exact absurd rfl (hne '[' (by decide) rfl)
  · rename_i hbrace
    cases hbrace
    exact absurd rfl (hne '{' (by decide) rfl)
  · rw [hword]
    rfl

theorem SpellsNumber.head {json : Json} {literal : List Char} (h : SpellsNumber json literal) :
    ∃ c tail, literal = c :: tail ∧ (c = '-' ∨ c.isDigit) := by
  have hsigned (negative : Bool) (n : Nat) (behind : List Char) :
      ∃ c tail, signed negative (Numeral.render n ++ behind) = c :: tail ∧
        (c = '-' ∨ c.isDigit) := by
    cases negative with
    | true => exact ⟨'-', _, rfl, .inl rfl⟩
    | false =>
      obtain ⟨c, digits, hrender⟩ := List.exists_cons_of_ne_nil (Numeral.render_ne_nil n)
      have hc : c.isDigit := Numeral.isDigit_of_mem_render (n := n) (by simp [hrender])
      rw [hrender]
      exact ⟨c, digits ++ behind, rfl, .inr hc⟩
  cases h with
  | @int negative n _ => simpa using hsigned negative n []
  | @real negative n fraction exponent _ _ _ =>
    rw [List.append_assoc]
    exact hsigned negative n (fraction ++ exponent)

/-- What is spelled is read with fuel for twice its length, since what it is made of stands
behind a character of its own. -/
theorem Spelled.reads {part : Part} (h : Spelled part text) :
    ∀ fuel, 2 * text.length ≤ fuel → part.Reads fuel text := by
  induction h with
  | @blank c json text hc h ih =>
    intro fuel hfuel rest hrest
    rw [List.length_cons] at hfuel
    have hskip : skipBlanks (c :: (text ++ rest)) = skipBlanks (text ++ rest) :=
      List.dropWhile_cons_of_pos hc
    rw [List.cons_append, value?_congr hskip]
    exact ih fuel (by omega) rest hrest
  | @word word json hword =>
    intro fuel hfuel rest hrest
    have hlength := length_pos_of_mem_words hword
    obtain ⟨fuel, rfl⟩ := Nat.exists_eq_add_one.mpr (by omega : 0 < fuel)
    exact value?_word hword rest
  | @number literal json h =>
    intro fuel hfuel rest hrest
    obtain ⟨c, tail, rfl, hc⟩ := h.head
    rw [List.length_cons] at hfuel
    obtain ⟨fuel, rfl⟩ := Nat.exists_eq_add_one.mpr (by omega : 0 < fuel)
    rw [List.cons_append, value?_number hc]
    exact h.number? hrest
  | @string content text h =>
    intro fuel hfuel rest hrest
    rw [List.length_cons] at hfuel
    obtain ⟨fuel, rfl⟩ := Nat.exists_eq_add_one.mpr (by omega : 0 < fuel)
    rw [List.cons_append, List.append_assoc]
    exact value?_string (h.stringTail? rest)
  | @emptyArray blanks hblanks =>
    intro fuel hfuel rest hrest
    rw [List.length_cons] at hfuel
    obtain ⟨fuel, rfl⟩ := Nat.exists_eq_add_one.mpr (by omega : 0 < fuel)
    rw [List.cons_append, List.append_assoc]
    exact value?_emptyArray hblanks
  | @array items text h ih =>
    intro fuel hfuel rest hrest
    rw [List.length_cons] at hfuel
    obtain ⟨fuel, rfl⟩ := Nat.exists_eq_add_one.mpr (by omega : 0 < fuel)
    exact value?_array (ih fuel (by omega) rest)
  | @emptyObject blanks hblanks =>
    intro fuel hfuel rest hrest
    rw [List.length_cons] at hfuel
    obtain ⟨fuel, rfl⟩ := Nat.exists_eq_add_one.mpr (by omega : 0 < fuel)
    rw [List.cons_append, List.append_assoc]
    exact value?_emptyObject hblanks
  | @object members text h ih =>
    intro fuel hfuel rest hrest
    rw [List.length_cons] at hfuel
    obtain ⟨fuel, rfl⟩ := Nat.exists_eq_add_one.mpr (by omega : 0 < fuel)
    exact value?_object (ih fuel (by omega) rest)
  | @lastItem item text blanks h hblanks ih =>
    intro fuel hfuel rest
    simp only [List.length_append, List.length_cons] at hfuel
    obtain ⟨fuel, rfl⟩ := Nat.exists_eq_add_one.mpr (by omega : 0 < fuel)
    have hitem := ih fuel (by omega) _ (hblanks.ends (ends_cons (.inr (.inl rfl)) rest))
    simp only [List.append_assoc]
    exact items?_last hblanks hitem
  | @item item items text blanks others h hblanks hothers ih ihOthers =>
    intro fuel hfuel rest
    simp only [List.length_append, List.length_cons] at hfuel
    obtain ⟨fuel, rfl⟩ := Nat.exists_eq_add_one.mpr (by omega : 0 < fuel)
    have hitem := ih fuel (by omega) _ (hblanks.ends (ends_cons (.inl rfl) (others ++ rest)))
    simp only [List.append_assoc]
    exact items?_cons hblanks hitem (ihOthers fuel (by omega) rest)
  | @lastMember content value before name between text blanks hbefore hname hbetween h hblanks ih =>
    intro fuel hfuel rest
    simp only [List.length_append, List.length_cons] at hfuel
    obtain ⟨fuel, rfl⟩ := Nat.exists_eq_add_one.mpr (by omega : 0 < fuel)
    have hvalue := ih fuel (by omega) _ (hblanks.ends (ends_cons (.inr (.inr rfl)) rest))
    simp only [List.append_assoc, List.cons_append]
    exact members?_last hblanks hbefore hname hbetween hvalue
  | @member content value members before name between text blanks others hbefore hname hbetween h
      hblanks hothers ih ihOthers =>
    intro fuel hfuel rest
    simp only [List.length_append, List.length_cons] at hfuel
    obtain ⟨fuel, rfl⟩ := Nat.exists_eq_add_one.mpr (by omega : 0 < fuel)
    have hvalue := ih fuel (by omega) _ (hblanks.ends (ends_cons (.inl rfl) (others ++ rest)))
    simp only [List.append_assoc, List.cons_append]
    exact members?_cons hblanks hbefore hname hbetween hvalue (ihOthers fuel (by omega) rest)

end

/-- Blanks before a part belong to its first token. -/
theorem Spelled.value_behind_blanks {json : Json} {text blanks : List Char}
    (h : Spelled (.value json) text) (hblanks : Blank blanks) :
    Spelled (.value json) (blanks ++ text) := by
  induction blanks with
  | nil => exact h
  | cons c blanks ih =>
    obtain ⟨hc, hblanks⟩ := List.forall_mem_cons.mp hblanks
    exact .blank hc (ih hblanks)

theorem Spelled.behind_blanks {part : Part} {text blanks : List Char} (h : Spelled part text)
    (hblanks : Blank blanks) : Spelled part (blanks ++ text) := by
  cases part with
  | value json => exact h.value_behind_blanks hblanks
  | items list =>
    cases h with
    | lastItem hitem hbehind =>
      rw [← List.append_assoc]
      exact .lastItem (hitem.value_behind_blanks hblanks) hbehind
    | item hitem hbehind hrest =>
      rw [← List.append_assoc]
      exact .item (hitem.value_behind_blanks hblanks) hbehind hrest
  | members found =>
    cases h with
    | lastMember hbefore hname hbetween hvalue hbehind =>
      rw [← List.append_assoc]
      exact .lastMember (List.forall_mem_append.mpr ⟨hblanks, hbefore⟩) hname hbetween hvalue
        hbehind
    | member hbefore hname hbetween hvalue hbehind hrest =>
      rw [← List.append_assoc]
      exact .member (List.forall_mem_append.mpr ⟨hblanks, hbefore⟩) hname hbetween hvalue hbehind
        hrest

/-- The text begins with what spells the part, and the rest is behind it. -/
def Part.Begins (part : Part) (text rest : List Char) : Prop :=
  ∃ front, text = front ++ rest ∧ Spelled part front

theorem Part.Begins.of_skipBlanks {part : Part} {text rest : List Char}
    (h : part.Begins (skipBlanks text) rest) : part.Begins text rest := by
  obtain ⟨front, hfront, hspelled⟩ := h
  obtain ⟨blanks, htext, hblanks⟩ := exists_blanks text
  refine ⟨blanks ++ front, ?_, hspelled.behind_blanks hblanks⟩
  rw [htext, hfront, List.append_assoc]

theorem begins_of_word? {text rest : List Char} {json : Json}
    (h : word? text = some (json, rest)) : (Part.value json).Begins text rest := by
  obtain ⟨⟨word, value⟩, hmem, hread⟩ := List.exists_of_findSome?_eq_some h
  obtain ⟨behind, hprefix, hresult⟩ := Option.map_eq_some_iff.mp hread
  cases hresult
  exact ⟨word, (List.append_eq_of_isPrefixOf?_eq_some hprefix).symm, .word hmem⟩

theorem begins_of_value? (fuel : Nat)
    (hitems : ∀ text items rest, items? fuel text = some (items, rest) →
      (Part.items items).Begins text rest)
    (hmembers : ∀ text members rest, members? fuel text = some (members, rest) →
      (Part.members members).Begins text rest)
    {text rest : List Char} {json : Json} (h : value? (fuel + 1) text = some (json, rest)) :
    (Part.value json).Begins text rest := by
  apply Part.Begins.of_skipBlanks
  rw [value?] at h
  split at h
  · rename_i tail htext
    rw [htext]
    obtain ⟨⟨content, behind⟩, hcontent, hjson⟩ := Option.bind_eq_some_iff.mp h
    cases hjson
    obtain ⟨spelled, rfl, hspelled⟩ := stringTail?_eq_some hcontent
    exact ⟨'"' :: (spelled ++ ['"']), by simp, .string hspelled⟩
  · rename_i tail htext
    rw [htext]
    split at h
    · rename_i behind hbehind
      cases h
      obtain ⟨blanks, htail, hblanks⟩ := exists_blanks tail
      rw [htail, hbehind]
      exact ⟨'[' :: (blanks ++ [']']), by simp, .emptyArray hblanks⟩
    · obtain ⟨⟨items, behind⟩, hread, hjson⟩ := Option.bind_eq_some_iff.mp h
      cases hjson
      obtain ⟨front, rfl, hfront⟩ := (hitems _ _ _ hread).of_skipBlanks
      exact ⟨'[' :: front, rfl, .array hfront⟩
  · rename_i tail htext
    rw [htext]
    split at h
    · rename_i behind hbehind
      cases h
      obtain ⟨blanks, htail, hblanks⟩ := exists_blanks tail
      rw [htail, hbehind]
      exact ⟨'{' :: (blanks ++ ['}']), by simp, .emptyObject hblanks⟩
    · obtain ⟨⟨members, behind⟩, hread, hjson⟩ := Option.bind_eq_some_iff.mp h
      cases hjson
      obtain ⟨front, rfl, hfront⟩ := (hmembers _ _ _ hread).of_skipBlanks
      exact ⟨'{' :: front, rfl, .object hfront⟩
  · rcases Option.or_eq_some_iff.mp h with hword | ⟨_, hnumber⟩
    · exact begins_of_word? hword
    · obtain ⟨literal, hliteral, hspelled⟩ := number?_eq_some hnumber
      exact ⟨literal, hliteral, .number hspelled⟩

theorem begins_of_items? {fuel : Nat}
    (hvalue : ∀ text json rest, value? fuel text = some (json, rest) →
      (Part.value json).Begins text rest)
    (hitems : ∀ text items rest, items? fuel text = some (items, rest) →
      (Part.items items).Begins text rest)
    {text rest : List Char} {items : List Json} (h : items? (fuel + 1) text = some (items, rest)) :
    (Part.items items).Begins text rest := by
  rw [items?] at h
  obtain ⟨⟨item, tail⟩, hitem, hlast⟩ := Option.bind_eq_some_iff.mp h
  obtain ⟨front, rfl, hfront⟩ := hvalue _ _ _ hitem
  obtain ⟨blanks, htail, hblanks⟩ := exists_blanks tail
  dsimp only at hlast
  split at hlast
  · rename_i behind hbehind
    cases hlast
    rw [htail, hbehind]
    exact ⟨front ++ (blanks ++ [']']), by simp, .lastItem hfront hblanks⟩
  · rename_i behind hbehind
    obtain ⟨⟨others, last⟩, hothers, hresult⟩ := Option.bind_eq_some_iff.mp hlast
    cases hresult
    obtain ⟨spelled, rfl, hspelled⟩ := hitems _ _ _ hothers
    rw [htail, hbehind]
    exact ⟨front ++ (blanks ++ ',' :: spelled), by simp, .item hfront hblanks hspelled⟩
  · cases hlast

theorem begins_of_members? {fuel : Nat}
    (hvalue : ∀ text json rest, value? fuel text = some (json, rest) →
      (Part.value json).Begins text rest)
    (hmembers : ∀ text members rest, members? fuel text = some (members, rest) →
      (Part.members members).Begins text rest)
    {text rest : List Char} {members : Option (List (String × Json))}
    (h : members? (fuel + 1) text = some (members, rest)) :
    (Part.members members).Begins text rest := by
  rw [members?] at h
  obtain ⟨before, htext, hbefore⟩ := exists_blanks text
  split at h
  · rename_i tail hquote
    obtain ⟨⟨content, behind⟩, hcontent, hrest⟩ := Option.bind_eq_some_iff.mp h
    obtain ⟨name, rfl, hname⟩ := stringTail?_eq_some hcontent
    obtain ⟨between, hsplit, hbetween⟩ := exists_blanks behind
    dsimp only at hrest
    split at hrest
    · rename_i tail hcolon
      obtain ⟨⟨value, last⟩, hread, hlast⟩ := Option.bind_eq_some_iff.mp hrest
      obtain ⟨front, rfl, hfront⟩ := hvalue _ _ _ hread
      obtain ⟨blanks, htail, hblanks⟩ := exists_blanks last
      dsimp only at hlast
      rw [htext, hquote, hsplit, hcolon, htail]
      split at hlast
      · rename_i behind hend
        cases hlast
        rw [hend]
        exact ⟨_, by simp, .lastMember hbefore hname hbetween hfront hblanks⟩
      · rename_i behind hcomma
        obtain ⟨⟨others, last⟩, hothers, hresult⟩ := Option.bind_eq_some_iff.mp hlast
        cases hresult
        obtain ⟨spelled, rfl, hspelled⟩ := hmembers _ _ _ hothers
        rw [hcomma]
        exact ⟨_, by simp, .member hbefore hname hbetween hfront hblanks hspelled⟩
      · cases hlast
    · cases hrest
  · cases h

/-- Whatever is read is spelled at the front of the text. -/
theorem begins_of_reads (fuel : Nat) :
    (∀ text json rest, value? fuel text = some (json, rest) →
      (Part.value json).Begins text rest) ∧
    (∀ text items rest, items? fuel text = some (items, rest) →
      (Part.items items).Begins text rest) ∧
    (∀ text members rest, members? fuel text = some (members, rest) →
      (Part.members members).Begins text rest) := by
  induction fuel with
  | zero =>
    refine ⟨?_, ?_, ?_⟩ <;> (intro text part rest h; cases h)
  | succ fuel ih =>
    obtain ⟨hvalue, hitems, hmembers⟩ := ih
    exact ⟨fun _ _ _ => begins_of_value? fuel hitems hmembers,
      fun _ _ _ => begins_of_items? hvalue hitems, fun _ _ _ => begins_of_members? hvalue hmembers⟩

theorem blank_iff_skipBlanks {text : List Char} : Blank text ↔ (skipBlanks text).isEmpty := by
  rw [skipBlanks, List.isEmpty_iff, List.dropWhile_eq_nil_iff]
  rfl

/-- A text is read as a value exactly if it spells the value and nothing but blanks is left. -/
theorem parse?_eq_some_iff {text : String} {json : Json} :
    parse? text = some json ↔
      ∃ front blanks, text.toList = front ++ blanks ∧ Spelled (.value json) front ∧
        Blank blanks := by
  constructor
  · intro h
    obtain ⟨⟨value, rest⟩, hread, h⟩ := Option.bind_eq_some_iff.mp h
    dsimp only at h
    split at h
    · rename_i hempty
      cases h
      obtain ⟨front, htext, hfront⟩ := (begins_of_reads _).1 _ _ _ hread
      exact ⟨front, rest, htext, hfront, blank_iff_skipBlanks.mpr hempty⟩
    · cases h
  · rintro ⟨front, blanks, htext, hfront, hblanks⟩
    have hfuel : 2 * front.length ≤ 2 * text.toList.length + 1 := by
      rw [htext, List.length_append]
      omega
    have hends : Ends (blanks ++ []) := hblanks.ends ends_nil
    rw [List.append_nil] at hends
    have hread := hfront.reads _ hfuel blanks hends
    rw [← htext] at hread
    simp only [parse?, hread, Option.bind_eq_bind, Option.bind_some]
    rw [if_pos (blank_iff_skipBlanks.mp hblanks)]

/-- No text spells two values. -/
theorem Spelled.unique {json other : Json} {text : List Char} (h : Spelled (.value json) text)
    (hother : Spelled (.value other) text) : json = other := by
  have hread := h.reads (2 * text.length) (Nat.le_refl _) [] ends_nil
  have hagain := hother.reads (2 * text.length) (Nat.le_refl _) [] ends_nil
  rw [hread] at hagain
  cases hagain
  rfl

/-- There is a text that spells the value. -/
def Written (json : Json) : Prop := ∃ text, Spelled (.value json) text

theorem written_string (text : String) : Written (string text) := by
  obtain ⟨spelled, hspelled⟩ := exists_spellsString text.toList
  have hstring := Spelled.string hspelled
  rw [ofContent, Option.map_some, String.ofList_toList] at hstring
  exact ⟨_, hstring⟩

theorem blank_nil : Blank [] := fun c hc => by cases hc

theorem exists_items {item : Json} {others : List Json}
    (h : ∀ other ∈ item :: others, Written other) :
    ∃ text, Spelled (.items (item :: others)) text := by
  induction others generalizing item with
  | nil =>
    obtain ⟨text, htext⟩ := h item (by simp)
    exact ⟨_, .lastItem htext blank_nil⟩
  | cons next others ih =>
    obtain ⟨⟨text, htext⟩, hothers⟩ := List.forall_mem_cons.mp h
    obtain ⟨rest, hrest⟩ := ih hothers
    exact ⟨_, .item htext blank_nil hrest⟩

theorem written_array {items : List Json} (h : ∀ item ∈ items, item.Written) :
    Written (array items) := by
  cases items with
  | nil => exact ⟨_, .emptyArray blank_nil⟩
  | cons item others =>
    obtain ⟨text, htext⟩ := exists_items h
    exact ⟨_, .array htext⟩

theorem member_toList (name : String) (value : Json) :
    member (some name.toList) value = some (name, value) := by
  rw [member, Option.map_some, String.ofList_toList]

theorem exists_members {name : String} {value : Json} {others : List (String × Json)}
    (h : ∀ other ∈ (name, value) :: others, other.2.Written) :
    ∃ text, Spelled (.members (some ((name, value) :: others))) text := by
  induction others generalizing name value with
  | nil =>
    obtain ⟨spelled, hname⟩ := exists_spellsString name.toList
    obtain ⟨text, htext⟩ := h (name, value) (by simp)
    have hmember := Spelled.lastMember blank_nil hname blank_nil htext blank_nil
    rw [member_toList] at hmember
    exact ⟨_, hmember⟩
  | cons next others ih =>
    obtain ⟨spelled, hname⟩ := exists_spellsString name.toList
    obtain ⟨⟨text, htext⟩, hothers⟩ := List.forall_mem_cons.mp h
    obtain ⟨rest, hrest⟩ := ih hothers
    have hmember := Spelled.member blank_nil hname blank_nil htext blank_nil hrest
    rw [member_toList] at hmember
    exact ⟨_, hmember⟩

theorem written_object {members : List (String × Json)} (h : ∀ member ∈ members, member.2.Written) :
    Written (object members) := by
  cases members with
  | nil => exact ⟨_, .emptyObject blank_nil⟩
  | cons member others =>
    obtain ⟨text, htext⟩ := exists_members h
    exact ⟨_, .object htext⟩

/-- A written value is read from some text. -/
theorem Written.exists_parse? {json : Json} (h : json.Written) : ∃ text, parse? text = some json := by
  obtain ⟨front, hfront⟩ := h
  exact ⟨String.ofList front, parse?_eq_some_iff.mpr
    ⟨front, [], by simp, hfront, blank_nil⟩⟩

end Json

end RecordCodec
