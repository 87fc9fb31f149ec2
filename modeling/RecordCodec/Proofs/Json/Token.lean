import RecordCodec.Json.Parser
import RecordCodec.Proofs.Text.Numeral

/-!
# Numbers and strings in JSON text

The grammar of the parts of JSON text that have no parts of their own. What stands at the
front of a text is read as a number or a string exactly if it is spelled like one. A
number reaches as far as it can be read on, the end of a string is its closing quote.

Spelled strings are those between the quotes. Their content is missing where surrogates
are without a partner: alone, or a high one before another escape of four digits.
-/

namespace RecordCodec

namespace Json

/-- The text is empty or begins with another character. -/
def Stops (p : Char → Bool) (text : List Char) : Prop := ∀ c, text.head? = some c → p c = false

theorem Stops.takeWhile {p : Char → Bool} {text : List Char} (h : Stops p text) :
    text.takeWhile p = [] := by
  cases text with
  | nil => rfl
  | cons c text => simp [h c rfl]

theorem Stops.dropWhile {p : Char → Bool} {text : List Char} (h : Stops p text) :
    text.dropWhile p = text := by
  cases text with
  | nil => rfl
  | cons c text => simp [h c rfl]

/-- One or more digits. -/
structure IsDecimal (text : List Char) : Prop where
  digits : ∀ c ∈ text, c.isDigit
  ne_nil : text ≠ []

theorem digits?_eq_some {text digits rest : List Char} (h : digits? text = some (digits, rest)) :
    text = digits ++ rest ∧ IsDecimal digits := by
  unfold digits? at h
  split at h
  · cases h
  · rename_i hne
    cases h
    have hall := List.all_takeWhile (l := text) (p := Char.isDigit)
    exact ⟨List.takeWhile_append_dropWhile.symm, List.all_eq_true.mp hall, hne⟩

theorem digits?_append {digits rest : List Char} (hdigits : IsDecimal digits)
    (hrest : Stops Char.isDigit rest) : digits? (digits ++ rest) = some (digits, rest) := by
  unfold digits?
  rw [List.takeWhile_append_of_pos hdigits.digits, List.dropWhile_append_of_pos hdigits.digits,
    hrest.takeWhile, hrest.dropWhile, List.append_nil]
  split
  · exact absurd rfl hdigits.ne_nil
  · rfl

inductive Fraction : List Char → Prop
  | absent : Fraction []
  | digits {digits : List Char} (h : IsDecimal digits) : Fraction ('.' :: digits)

inductive Exponent : List Char → Prop
  | absent : Exponent []
  | digits {mark : Char} {digits : List Char} (hmark : mark = 'e' ∨ mark = 'E')
      (h : IsDecimal digits) : Exponent (mark :: digits)
  | signed {mark sign : Char} {digits : List Char} (hmark : mark = 'e' ∨ mark = 'E')
      (hsign : sign = '+' ∨ sign = '-') (h : IsDecimal digits) : Exponent (mark :: sign :: digits)

theorem fraction?_eq_some {text fraction rest : List Char}
    (h : fraction? text = some (fraction, rest)) : text = fraction ++ rest ∧ Fraction fraction := by
  unfold fraction? at h
  split at h
  · obtain ⟨⟨digits, tail⟩, hdigits, h⟩ := Option.bind_eq_some_iff.mp h
    cases h
    obtain ⟨rfl, hspelled⟩ := digits?_eq_some hdigits
    exact ⟨rfl, .digits hspelled⟩
  · cases h
    exact ⟨rfl, .absent⟩

theorem exponent?_eq_some {text exponent rest : List Char}
    (h : exponent? text = some (exponent, rest)) : text = exponent ++ rest ∧ Exponent exponent := by
  unfold exponent? at h
  split at h
  · rename_i mark tail
    split at h
    · rename_i hmark
      split at h
      · rename_i sign tail
        split at h
        · rename_i hsign
          obtain ⟨⟨digits, tail⟩, hdigits, h⟩ := Option.bind_eq_some_iff.mp h
          cases h
          obtain ⟨rfl, hspelled⟩ := digits?_eq_some hdigits
          exact ⟨rfl, .signed hmark hsign hspelled⟩
        · obtain ⟨⟨digits, tail⟩, hdigits, h⟩ := Option.bind_eq_some_iff.mp h
          cases h
          obtain ⟨htext, hspelled⟩ := digits?_eq_some hdigits
          rw [htext]
          exact ⟨rfl, .digits hmark hspelled⟩
      · cases h
    · cases h
      exact ⟨rfl, .absent⟩
  · cases h
    exact ⟨rfl, .absent⟩

/-- A number before the text does not read on into it. -/
def Ends (text : List Char) : Prop :=
  ∀ c, text.head? = some c → c.isDigit = false ∧ c ≠ '.' ∧ c ≠ 'e' ∧ c ≠ 'E'

theorem Ends.stops {text : List Char} (h : Ends text) : Stops Char.isDigit text :=
  fun c hc => (h c hc).1

theorem mark_isDigit {mark : Char} (h : mark = 'e' ∨ mark = 'E') : mark.isDigit = false := by
  rcases h with rfl | rfl <;> rfl

theorem sign_isDigit {sign : Char} (h : sign = '+' ∨ sign = '-') : sign.isDigit = false := by
  rcases h with rfl | rfl <;> rfl

/-- An exponent begins with its mark, so neither digits nor a fraction read on into it. -/
theorem Exponent.head {exponent rest : List Char} (h : Exponent exponent) (hrest : Ends rest)
    {c : Char} (hc : (exponent ++ rest).head? = some c) : c.isDigit = false ∧ c ≠ '.' := by
  cases h with
  | absent => exact ⟨(hrest c hc).1, (hrest c hc).2.1⟩
  | digits hmark _ | signed hmark _ _ =>
    cases hc
    exact ⟨mark_isDigit hmark, by rcases hmark with rfl | rfl <;> decide⟩

theorem exponent?_append {exponent rest : List Char} (h : Exponent exponent) (hrest : Ends rest) :
    exponent? (exponent ++ rest) = some (exponent, rest) := by
  cases h with
  | absent =>
    cases rest with
    | nil => rfl
    | cons c rest =>
      obtain ⟨_, _, hlower, hupper⟩ := hrest c rfl
      simp [exponent?, hlower, hupper]
  | @digits mark digits hmark hdigits =>
    have hread := digits?_append hdigits hrest.stops
    obtain ⟨c, others, rfl⟩ := List.exists_cons_of_ne_nil hdigits.ne_nil
    have hc : c.isDigit = true := hdigits.digits c (by simp)
    have hsign : ¬ (c = '+' ∨ c = '-') := fun hsign => by simp [sign_isDigit hsign] at hc
    simp only [List.cons_append] at hread ⊢
    simp [exponent?, hmark, hsign, hread]
  | @signed mark sign digits hmark hsign hdigits =>
    simp [exponent?, hmark, hsign, digits?_append hdigits hrest.stops]

theorem Fraction.head {fraction rest : List Char} (h : Fraction fraction)
    (hrest : Stops Char.isDigit rest) : Stops Char.isDigit (fraction ++ rest) := by
  cases h with
  | absent => exact hrest
  | digits _ =>
    intro c hc
    cases hc
    rfl

theorem fraction?_append {fraction rest : List Char} (h : Fraction fraction)
    (hdigit : Stops Char.isDigit rest) (hpoint : rest.head? ≠ some '.') :
    fraction? (fraction ++ rest) = some (fraction, rest) := by
  cases h with
  | absent =>
    rw [List.nil_append, fraction?]
    rintro tail rfl
    exact hpoint rfl
  | digits hdigits => simp [fraction?, digits?_append hdigits hdigit]

/-- A literal with its sign, if it has one. -/
def signed (negative : Bool) (literal : List Char) : List Char :=
  if negative then '-' :: literal else literal

/-- A number is an integer if it is written without a fraction and an exponent and is not
minus zero. -/
def IsInteger (negative : Bool) (n : Nat) (fraction exponent : List Char) : Prop :=
  fraction = [] ∧ exponent = [] ∧ ¬ (negative = true ∧ n = 0)

inductive SpellsNumber : Json → List Char → Prop
  | int {negative : Bool} {n : Nat} (hint : IsInteger negative n [] []) :
      SpellsNumber (.int (if negative then -n else n)) (signed negative (Numeral.render n))
  | real {negative : Bool} {n : Nat} {fraction exponent : List Char} (hfraction : Fraction fraction)
      (hexponent : Exponent exponent) (hreal : ¬ IsInteger negative n fraction exponent) :
      SpellsNumber
        (.real (String.ofList (signed negative (Numeral.render n ++ fraction ++ exponent))))
        (signed negative (Numeral.render n ++ fraction ++ exponent))

theorem isDecimal_render (n : Nat) : IsDecimal (Numeral.render n) :=
  ⟨fun _ => Numeral.isDigit_of_mem_render, Numeral.render_ne_nil n⟩

theorem isInteger_iff {negative : Bool} {n : Nat} {fraction exponent : List Char} :
    (fraction.isEmpty && exponent.isEmpty && !(negative && n == 0)) = true ↔
      IsInteger negative n fraction exponent := by
  unfold IsInteger
  cases negative <;> simp [List.isEmpty_iff, and_assoc]

theorem unsigned?_eq_some {negative : Bool} {text rest : List Char} {json : Json}
    (h : unsigned? negative text = some (json, rest)) :
    ∃ literal, text = literal ++ rest ∧ SpellsNumber json (signed negative literal) := by
  unfold unsigned? at h
  obtain ⟨⟨digits, tail⟩, hdigits, hnumber⟩ := Option.bind_eq_some_iff.mp h
  obtain ⟨n, hn, hbehind⟩ := Option.bind_eq_some_iff.mp hnumber
  obtain ⟨⟨fraction, others⟩, hfraction, hlast⟩ := Option.bind_eq_some_iff.mp hbehind
  obtain ⟨⟨exponent, behind⟩, hexponent, hjson⟩ := Option.bind_eq_some_iff.mp hlast
  obtain ⟨rfl, _⟩ := digits?_eq_some hdigits
  obtain ⟨rfl, hisFraction⟩ := fraction?_eq_some hfraction
  obtain ⟨rfl, hisExponent⟩ := exponent?_eq_some hexponent
  obtain rfl := Numeral.eq_render_of_parse? hn
  dsimp only at hjson
  split at hjson
  · rename_i hint
    obtain ⟨rfl, rfl, hzero⟩ := isInteger_iff.mp hint
    cases hjson
    exact ⟨Numeral.render n, rfl, .int ⟨rfl, rfl, hzero⟩⟩
  · rename_i hreal
    cases hjson
    exact ⟨Numeral.render n ++ fraction ++ exponent, by simp,
      .real hisFraction hisExponent fun hint => hreal (isInteger_iff.mpr hint)⟩

theorem unsigned?_append (negative : Bool) (n : Nat) {fraction exponent rest : List Char}
    (hfraction : Fraction fraction) (hexponent : Exponent exponent) (hrest : Ends rest) :
    unsigned? negative (Numeral.render n ++ (fraction ++ (exponent ++ rest))) =
      if fraction.isEmpty && exponent.isEmpty && !(negative && n == 0) then
        some (.int (if negative then -n else n), rest)
      else
        some (.real (String.ofList
          (signed negative (Numeral.render n ++ fraction ++ exponent))), rest) := by
  have hstops : Stops Char.isDigit (exponent ++ rest) := fun c hc => (hexponent.head hrest hc).1
  have hpoint : (exponent ++ rest).head? ≠ some '.' := fun hc => (hexponent.head hrest hc).2 rfl
  unfold unsigned?
  rw [digits?_append (isDecimal_render n) (hfraction.head hstops)]
  simp only [Option.bind_eq_bind, Option.bind_some, Numeral.parse?_render,
    fraction?_append hfraction hstops hpoint, exponent?_append hexponent hrest]
  rfl

theorem number?_eq_some {text rest : List Char} {json : Json}
    (h : number? text = some (json, rest)) :
    ∃ literal, text = literal ++ rest ∧ SpellsNumber json literal := by
  unfold number? at h
  split at h
  · obtain ⟨literal, rfl, hspelled⟩ := unsigned?_eq_some h
    exact ⟨'-' :: literal, rfl, hspelled⟩
  · exact unsigned?_eq_some h

theorem number?_signed (negative : Bool) (n : Nat) (text : List Char) :
    number? (signed negative (Numeral.render n ++ text)) =
      unsigned? negative (Numeral.render n ++ text) := by
  cases negative with
  | true => rfl
  | false =>
    obtain ⟨c, digits, hrender⟩ := List.exists_cons_of_ne_nil (Numeral.render_ne_nil n)
    have hc : c.isDigit := Numeral.isDigit_of_mem_render (n := n) (by simp [hrender])
    rw [hrender]
    change number? (c :: (digits ++ text)) = unsigned? false (c :: (digits ++ text))
    rw [number?]
    -- A digit is not a sign.
    rintro tail htext
    cases htext
    cases hc

theorem signed_append (negative : Bool) (literal rest : List Char) :
    signed negative literal ++ rest = signed negative (literal ++ rest) := by
  cases negative <;> rfl

theorem SpellsNumber.number? {json : Json} {literal rest : List Char}
    (h : SpellsNumber json literal) (hrest : Ends rest) :
    Json.number? (literal ++ rest) = some (json, rest) := by
  cases h with
  | @int negative n hint =>
    rw [signed_append, number?_signed]
    exact (unsigned?_append negative n .absent .absent hrest).trans
      (if_pos (isInteger_iff.mpr hint))
  | @real negative n fraction exponent hfraction hexponent hreal =>
    rw [signed_append, List.append_assoc, List.append_assoc, number?_signed]
    exact (unsigned?_append negative n hfraction hexponent hrest).trans
      (if_neg fun hint => hreal (isInteger_iff.mp hint))

/-- The text of a string between its quotes, and its content. -/
inductive SpellsString : Option (List Char) → List Char → Prop
  | empty : SpellsString (some []) []
  | plain {c : Char} {content : Option (List Char)} {text : List Char} (hquote : c ≠ '"')
      (hescape : c ≠ '\\') (hcontrol : 0x20 ≤ c.toNat) (h : SpellsString content text) :
      SpellsString (content.map (c :: ·)) (c :: text)
  | letter {letter c : Char} {content : Option (List Char)} {text : List Char}
      (hletter : escape? letter = some c) (h : SpellsString content text) :
      SpellsString (content.map (c :: ·)) ('\\' :: letter :: text)
  | unit {a b c d : Char} {n : Nat} {content : Option (List Char)} {text : List Char}
      (hunit : unit? a b c d = some n) (hhigh : isHighSurrogate n = false)
      (hlow : isLowSurrogate n = false) (h : SpellsString content text) :
      SpellsString (content.map (Char.ofNat n :: ·)) ('\\' :: 'u' :: a :: b :: c :: d :: text)
  | pair {a b c d e f g h : Char} {high low : Nat} {content : Option (List Char)}
      {text : List Char} (hunit : unit? a b c d = some high) (hhigh : isHighSurrogate high)
      (hnext : unit? e f g h = some low) (hlow : isLowSurrogate low)
      (hrest : SpellsString content text) :
      SpellsString (content.map (ofSurrogates high low :: ·))
        ('\\' :: 'u' :: a :: b :: c :: d :: '\\' :: 'u' :: e :: f :: g :: h :: text)
  | lowAlone {a b c d : Char} {n : Nat} {content : Option (List Char)} {text : List Char}
      (hunit : unit? a b c d = some n) (hlow : isLowSurrogate n)
      (h : SpellsString content text) :
      SpellsString none ('\\' :: 'u' :: a :: b :: c :: d :: text)
  | highAlone {a b c d : Char} {n : Nat} {content : Option (List Char)} {text : List Char}
      (hunit : unit? a b c d = some n) (hhigh : isHighSurrogate n)
      (hnext : ∀ tail, text ≠ '\\' :: 'u' :: tail) (h : SpellsString content text) :
      SpellsString none ('\\' :: 'u' :: a :: b :: c :: d :: text)
  | unpaired {a b c d e f g h : Char} {high next : Nat} {content : Option (List Char)}
      {text : List Char} (hunit : unit? a b c d = some high) (hhigh : isHighSurrogate high)
      (hnext : unit? e f g h = some next) (hlow : isLowSurrogate next = false)
      (hrest : SpellsString content text) :
      SpellsString none
        ('\\' :: 'u' :: a :: b :: c :: d :: '\\' :: 'u' :: e :: f :: g :: h :: text)

/-- An escape of digits has all four of them. -/
theorem exists_digits_of_stringTail? {text : List Char} {result : Option (List Char) × List Char}
    (h : stringTail? ('\\' :: 'u' :: text) = some result) :
    ∃ a b c d rest, text = a :: b :: c :: d :: rest := by
  by_contra hshort
  push Not at hshort
  rw [stringTail?] at h
  · cases h
  · intro a b c d rest _ htext
    exact hshort a b c d rest htext

theorem stringTail?_eq_some {text rest : List Char} {content : Option (List Char)}
    (h : stringTail? text = some (content, rest)) :
    ∃ spelled, text = spelled ++ '"' :: rest ∧ SpellsString content spelled := by
  induction text using stringTail?.induct generalizing content with
  | case1 => cases h
  | case2 rest =>
    cases h
    exact ⟨[], rfl, .empty⟩
  | case3 a b c d tail ihPair ih =>
    rw [stringTail?] at h
    obtain ⟨unit, hunit, hbehind⟩ := Option.bind_eq_some_iff.mp h
    split at hbehind
    · rename_i hhigh
      split at hbehind
      · rename_i e f g i tail
        obtain ⟨next, hnext, hlast⟩ := Option.bind_eq_some_iff.mp hbehind
        obtain ⟨⟨found, behind⟩, hfound, hcontent⟩ := Option.bind_eq_some_iff.mp hlast
        dsimp only at hcontent
        split at hcontent
        · rename_i hlow
          cases hcontent
          obtain ⟨spelled, rfl, hspelled⟩ := ihPair hfound
          exact ⟨_, rfl, .pair hunit hhigh hnext hlow hspelled⟩
        · rename_i hlow
          cases hcontent
          obtain ⟨spelled, rfl, hspelled⟩ := ihPair hfound
          exact ⟨_, rfl, .unpaired hunit hhigh hnext (by simpa using hlow) hspelled⟩
      · rename_i hnext
        obtain ⟨⟨found, behind⟩, hfound, hcontent⟩ := Option.bind_eq_some_iff.mp hbehind
        cases hcontent
        obtain ⟨spelled, rfl, hspelled⟩ := ih hfound
        refine ⟨'\\' :: 'u' :: a :: b :: c :: d :: spelled, rfl,
          .highAlone hunit hhigh ?_ hspelled⟩
        rintro others rfl
        obtain ⟨e, f, g, i, rest, htail⟩ := exists_digits_of_stringTail? hfound
        exact hnext e f g i rest (congrArg ('\\' :: 'u' :: ·) htail)
    · rename_i hhigh
      obtain ⟨⟨found, behind⟩, hfound, hcontent⟩ := Option.bind_eq_some_iff.mp hbehind
      dsimp only at hcontent
      split at hcontent
      · rename_i hlow
        cases hcontent
        obtain ⟨spelled, rfl, hspelled⟩ := ih hfound
        exact ⟨_, rfl, .lowAlone hunit hlow hspelled⟩
      · rename_i hlow
        cases hcontent
        obtain ⟨spelled, rfl, hspelled⟩ := ih hfound
        exact ⟨_, rfl, .unit hunit (by simpa using hhigh) (by simpa using hlow) hspelled⟩
  | case4 letter tail hshort ih =>
    rw [stringTail?] at h
    · obtain ⟨c, hletter, hbehind⟩ := Option.bind_eq_some_iff.mp h
      obtain ⟨⟨found, behind⟩, hfound, hcontent⟩ := Option.bind_eq_some_iff.mp hbehind
      cases hcontent
      obtain ⟨spelled, rfl, hspelled⟩ := ih hfound
      exact ⟨_, rfl, .letter hletter hspelled⟩
    · exact hshort
  | case5 c tail hquote hunit hletter hcontrol =>
    rw [stringTail?, if_pos hcontrol] at h
    · cases h
    · exact hquote
    · exact hunit
    · exact hletter
  | case6 c tail hquote hunit hletter hcontrol ih =>
    rw [stringTail?, if_neg hcontrol] at h
    · obtain ⟨⟨found, behind⟩, hfound, hcontent⟩ := Option.bind_eq_some_iff.mp h
      cases hcontent
      obtain ⟨spelled, rfl, hspelled⟩ := ih hfound
      refine ⟨_, rfl, .plain hquote ?_ (Nat.le_of_not_lt hcontrol) hspelled⟩
      -- A backslash has a letter behind it, if only the closing quote.
      intro hescape
      have hne : spelled ++ '"' :: rest ≠ [] := by simp
      obtain ⟨letter, others, hcons⟩ := List.exists_cons_of_ne_nil hne
      exact hletter letter others hescape hcons
    · exact hquote
    · exact hunit
    · exact hletter

/-- A low surrogate is not a high one. -/
theorem not_isHighSurrogate {n : Nat} (h : isLowSurrogate n) : isHighSurrogate n = false := by
  simp only [isLowSurrogate, isHighSurrogate, Bool.and_eq_true, decide_eq_true_eq] at h ⊢
  simp only [Bool.and_eq_false_imp, decide_eq_true_eq, decide_eq_false_iff_not]
  omega

theorem SpellsString.stringTail? {content : Option (List Char)} {text : List Char}
    (h : SpellsString content text) (rest : List Char) :
    Json.stringTail? (text ++ '"' :: rest) = some (content, rest) := by
  induction h with
  | empty => rfl
  | @plain c content text hquote hescape hcontrol h ih =>
    rw [List.cons_append, Json.stringTail?, if_neg (Nat.not_lt.mpr hcontrol), ih]
    · rfl
    · exact hquote
    · intro a b c' d tail hc _
      exact hescape hc
    · intro letter tail hc _
      exact hescape hc
  | @letter letter c content text hletter h ih =>
    rw [List.cons_append, List.cons_append, Json.stringTail?, hletter, ih]
    · rfl
    · rintro a b c' d tail rfl _
      cases hletter
  | unit hunit hhigh hlow h ih =>
    simp [Json.stringTail?, hunit, hhigh, hlow, ih]
  | pair hunit hhigh hnext hlow h ih =>
    simp [Json.stringTail?, hunit, hhigh, hnext, hlow, ih]
  | lowAlone hunit hlow h ih =>
    simp [Json.stringTail?, hunit, not_isHighSurrogate hlow, hlow, ih]
  | @highAlone a b c d n content text hunit hhigh hnext h ih =>
    simp only [List.cons_append, Json.stringTail?, hunit, Option.bind_eq_bind, Option.bind_some,
      hhigh, if_true]
    split
    · rename_i e f g i tail htext
      -- What the escape is made of would stand before the closing quote.
      match text, hnext with
      | [], _ => simp at htext
      | [_], _ => simp at htext
      | first :: second :: others, hnext =>
        obtain ⟨hfirst, hsecond, _⟩ : first = '\\' ∧ second = 'u' ∧ _ := by simpa using htext
        exact absurd (by rw [hfirst, hsecond]) (hnext others)
    · rw [ih]
      rfl
  | unpaired hunit hhigh hnext hlow h ih =>
    simp [Json.stringTail?, hunit, hhigh, hnext, hlow, ih]

/-- A control character is escaped by its number. -/
theorem unit?_control : ∀ n < 0x20,
    unit? '0' '0' (Hex.digit (n / 16)) (Hex.digit (n % 16)) = some n := by
  decide

/-- Every content can be written. -/
theorem exists_spellsString (content : List Char) : ∃ text, SpellsString (some content) text := by
  induction content with
  | nil => exact ⟨[], .empty⟩
  | cons c content ih =>
    obtain ⟨text, htext⟩ := ih
    by_cases hquote : c = '"'
    · rw [hquote]
      exact ⟨'\\' :: '"' :: text, .letter rfl htext⟩
    by_cases hescape : c = '\\'
    · rw [hescape]
      exact ⟨'\\' :: '\\' :: text, .letter rfl htext⟩
    by_cases hcontrol : c.toNat < 0x20
    · have hhigh : isHighSurrogate c.toNat = false := by
        simp only [isHighSurrogate, Bool.and_eq_false_imp, decide_eq_true_eq]
        omega
      have hlow : isLowSurrogate c.toNat = false := by
        simp only [isLowSurrogate, Bool.and_eq_false_imp, decide_eq_true_eq]
        omega
      have hspelled := SpellsString.unit (unit?_control c.toNat hcontrol) hhigh hlow htext
      rw [Option.map_some, Char.ofNat_toNat] at hspelled
      exact ⟨_, hspelled⟩
    · exact ⟨c :: text, .plain hquote hescape (Nat.le_of_not_lt hcontrol) htext⟩

end Json

end RecordCodec
