import Dataflow.Proofs.Plain
set_option autoImplicit false

/-!
What is written as JSON text is read back, whatever text follows it. Texts and whole numbers come
back by the way they are written. A fraction comes back if it does so on its own.
-/

namespace Dataflow.Wire

/-! ### Blanks -/

def Blank (cs : List Char) : Prop := ∀ c ∈ cs, isBlank c = true

theorem blank_nil : Blank [] := fun _ h => by cases h

theorem blanks_append {sp cs : List Char} (h : Blank sp) : blanks (sp ++ cs) = blanks cs := by
  induction sp with
  | nil => rfl
  | cons c sp ih =>
    simp only [blanks, List.cons_append, List.dropWhile_cons, h c List.mem_cons_self, if_true]
    exact ih fun d hd => h d (List.mem_cons_of_mem _ hd)

theorem blanks_cons {c : Char} {cs : List Char} (h : isBlank c = false) :
    blanks (c :: cs) = c :: cs := by
  simp [blanks, h]

/-! ### Numerals -/

/-- No numeral goes on here. -/
def Stops (rest : List Char) : Prop :=
  ∀ c ∈ rest.head?, c.isDigit = false ∧ c ≠ '.' ∧ c ≠ 'e' ∧ c ≠ 'E'

theorem readDigits_of_stops {rest : List Char} (h : Stops rest) : readDigits rest = ([], rest) := by
  cases rest with
  | nil => rfl
  | cons c rest => simp [readDigits, (h c rfl).1]

theorem readDigits_append (cs : List Char) {rest : List Char} (h : Stops rest) :
    readDigits (cs ++ rest) = ((readDigits cs).1, (readDigits cs).2 ++ rest) := by
  induction cs with
  | nil => exact readDigits_of_stops h
  | cons c cs ih =>
    simp only [readDigits, Prod.mk.injEq] at ih
    by_cases hc : c.isDigit <;> simp [readDigits, hc, ih.1, ih.2]

theorem readFraction_of_stops {rest : List Char} (h : Stops rest) :
    readFraction rest = some (none, rest) := by
  cases rest with
  | nil => rfl
  | cons c rest =>
    rw [readFraction]
    rintro cs ⟨rfl, -⟩
    exact (h '.' rfl).2.1 rfl

theorem readFraction_of_ne {c : Char} (cs : List Char) (h : c ≠ '.') :
    readFraction (c :: cs) = some (none, c :: cs) := by
  rw [readFraction]
  rintro _ ⟨rfl, -⟩
  exact h rfl

theorem readFraction_append {cs rest r : List Char} {f : Option (List Nat)} (h : Stops rest)
    (hf : readFraction cs = some (f, r)) : readFraction (cs ++ rest) = some (f, r ++ rest) := by
  cases cs with
  | nil =>
    obtain ⟨rfl, rfl⟩ : none = f ∧ [] = r := by simpa [readFraction] using hf
    exact readFraction_of_stops h
  | cons c cs =>
    by_cases hc : c = '.'
    · subst hc
      simp only [List.cons_append, readFraction, readDigits_append cs h] at hf ⊢
      grind
    · rw [List.cons_append, readFraction_of_ne _ hc]
      rw [readFraction_of_ne _ hc] at hf
      grind

theorem readSign_append {cs rest : List Char} (h : cs ≠ []) :
    readSign (cs ++ rest) = ((readSign cs).1, (readSign cs).2 ++ rest) := by
  cases cs with
  | nil => exact absurd rfl h
  | cons c cs =>
    simp only [List.cons_append]
    unfold readSign
    grind

theorem readPower_append {cs rest r : List Char} {p : Option (Bool × List Nat)} (h : Stops rest)
    (hp : readPower cs = some (p, r)) : readPower (cs ++ rest) = some (p, r ++ rest) := by
  cases cs with
  | nil =>
    obtain ⟨rfl, rfl⟩ : none = p ∧ [] = r := by simpa [readPower] using hp
    cases rest with
    | nil => rfl
    | cons c rest => simp [readPower, h c rfl]
  | cons c cs =>
    by_cases hc : (c == 'e' || c == 'E') = true
    · have hcs : cs ≠ [] := by
        rintro rfl
        simp [readPower, hc, readSign, readDigits] at hp
      simp only [List.cons_append, readPower, hc, if_true, readSign_append hcs,
        readDigits_append _ h] at hp ⊢
      grind
    · simp only [List.cons_append, readPower, hc] at hp ⊢
      grind

/-- A numeral that is read where the text ends is read in front of any other text. -/
theorem readNumeral_append {cs rest r : List Char} {negative : Bool} {x : Numeral} (h : Stops rest)
    (hx : readNumeral negative cs = some (x, r)) :
    readNumeral negative (cs ++ rest) = some (x, r ++ rest) := by
  simp only [readNumeral, readDigits_append cs h, Option.bind_eq_bind] at hx ⊢
  split at hx
  · simp at hx
  · simp at hx
  · next whole tail hne h0 hw =>
    obtain ⟨⟨f, r₁⟩, hf, hx⟩ := Option.bind_eq_some_iff.1 hx
    obtain ⟨⟨p, r₂⟩, hp, hx⟩ := Option.bind_eq_some_iff.1 hx
    obtain ⟨rfl, rfl⟩ : _ = x ∧ r₂ = r := by simpa using hx
    simp [hw, readFraction_append h hf, readPower_append h hp]

theorem digitValue_digitChar : ∀ n < 10, digitValue n.digitChar = n := by decide

theorem isDigit_of_mem_digitChars {n : Nat} {c : Char} (h : c ∈ digitChars n) : c.isDigit = true :=
  Nat.isDigit_of_mem_toDigits (by decide) (by decide) h

theorem exists_digitChars_eq_cons (n : Nat) :
    ∃ c cs, digitChars n = c :: cs ∧ c.isDigit = true := by
  obtain ⟨c, cs, hc⟩ := List.exists_cons_of_ne_nil (Nat.toDigits_ne_nil (n := n) (b := 10))
  exact ⟨c, cs, hc, isDigit_of_mem_digitChars (n := n) (by simp [digitChars, hc])⟩

/-- The digits of a number spell it, and a zero comes first only where it stands alone. -/
theorem spell_digitChars (n : Nat) :
    Numeral.spell ((digitChars n).map digitValue) = n ∧
      ∀ ds, (digitChars n).map digitValue = 0 :: ds → ds = [] := by
  induction n using Nat.strongRecOn with
  | ind n ih =>
    by_cases hn : n < 10
    · simp [digitChars, Nat.toDigits_of_lt_base hn, digitValue_digitChar n hn, Numeral.spell]
    · obtain ⟨hs, hz⟩ := ih (n / 10) (by omega)
      have hd : (digitChars n).map digitValue =
          (digitChars (n / 10)).map digitValue ++ [n % 10] := by
        rw [digitChars, Nat.toDigits_of_base_le (by decide) (by omega), List.map_append]
        simp [digitChars, digitValue_digitChar (n % 10) (by omega)]
      refine ⟨?_, fun ds h => ?_⟩
      · rw [Numeral.spell] at hs
        rw [hd, Numeral.spell, List.foldl_append, hs]
        simp only [List.foldl_cons, List.foldl_nil]
        omega
      · -- a zero in front would already stand in front of the digits of `n / 10`
        rw [hd] at h
        cases hq : (digitChars (n / 10)).map digitValue with
        | nil => exact absurd (List.map_eq_nil_iff.1 hq) Nat.toDigits_ne_nil
        | cons d qs =>
          rw [hq] at h hs hz
          obtain ⟨rfl, -⟩ := by simpa using h
          rw [hz qs rfl] at hs
          simp only [Numeral.spell, List.foldl_cons, List.foldl_nil] at hs
          omega

theorem readNumeral_digitChars (negative : Bool) (n : Nat) {rest : List Char} (h : Stops rest) :
    readNumeral negative (digitChars n ++ rest) =
      some (⟨negative, (digitChars n).map digitValue, none, none⟩, rest) := by
  refine readNumeral_append h (r := []) ?_
  have hd : readDigits (digitChars n) = ((digitChars n).map digitValue, []) := by
    have hall : ∀ c ∈ digitChars n, c.isDigit = true := fun c => isDigit_of_mem_digitChars
    have ht : (digitChars n ++ []).takeWhile Char.isDigit = _ := List.takeWhile_append_of_pos hall
    have hd : (digitChars n ++ []).dropWhile Char.isDigit = _ := List.dropWhile_append_of_pos hall
    rw [List.append_nil, List.takeWhile_nil, List.append_nil] at ht
    rw [List.append_nil, List.dropWhile_nil] at hd
    rw [readDigits, ht, hd]
  rw [readNumeral, hd]
  split
  · next h => simp [digitChars, Nat.toDigits_ne_nil] at h
  · next h =>
    have := (spell_digitChars n).2 _ (congrArg Prod.fst h)
    simp at this
  · next h =>
    cases h
    rfl

/-- The characters of numerals. -/
def NumeralChar (c : Char) : Prop := c.isDigit = true ∨ c ∈ ['.', 'e', '+', '-']

instance (c : Char) : Decidable (NumeralChar c) := inferInstanceAs (Decidable (_ ∨ _))

theorem NumeralChar.not_blank {c : Char} (h : NumeralChar c) : isBlank c = false := by
  cases hb : isBlank c with
  | false => rfl
  | true =>
    simp only [isBlank, Bool.or_eq_true, beq_iff_eq] at hb
    obtain ((rfl | rfl) | rfl) | rfl := hb <;> exact absurd h (by decide)

theorem readValue_numeral (fuel : Nat) {c : Char} (cs : List Char) (h : NumeralChar c)
    (hm : c ≠ '-') :
    readValue (fuel + 1) (c :: cs) =
      (readNumeral false (c :: cs)).map fun p => (p.1.wire, p.2) := by
  rw [readValue, blanks_cons h.not_blank]
  split
  case h_8 => rfl
  all_goals
    next he =>
      injection he with hc
      subst hc
      first | exact absurd rfl hm | exact absurd h (by decide)

theorem readValue_minus (fuel : Nat) (cs : List Char) :
    readValue (fuel + 1) ('-' :: cs) = (readNumeral true cs).map fun p => (p.1.wire, p.2) := by
  rw [readValue, blanks_cons (by decide)]
  rfl

theorem wire_digitChars {negative : Bool} {n : Nat} {i : Int} (hi : IsWord i)
    (hn : i = if negative then -(n : Int) else n) (hz : negative = true → 0 < n) :
    Numeral.wire ⟨negative, (digitChars n).map digitValue, none, none⟩ = .int i := by
  have hs := (spell_digitChars n).1
  obtain ⟨hlo, hhi⟩ := hi
  have : Numeral.int? ⟨negative, (digitChars n).map digitValue, none, none⟩ = some i := by
    simp only [Numeral.int?, hs, UInt64.size]
    grind
  simp [Numeral.wire, this]

theorem readValue_intChars (fuel : Nat) {i : Int} (hi : IsWord i) {rest : List Char}
    (h : Stops rest) : readValue (fuel + 1) (intChars i ++ rest) = some (.int i, rest) := by
  have hw (negative : Bool) := readNumeral_digitChars negative i.natAbs h
  by_cases hneg : i < 0
  · rw [intChars, if_pos hneg, List.cons_append, readValue_minus, hw, Option.map_some,
      wire_digitChars hi (by rw [if_pos rfl]; omega) (by omega)]
  · obtain ⟨c, cs, hc, hd⟩ := exists_digitChars_eq_cons i.natAbs
    have hm : c ≠ '-' := by
      rintro rfl
      exact absurd hd (by decide)
    have hv := readValue_numeral fuel (cs ++ rest) (.inl hd) hm
    rw [← List.cons_append, ← hc] at hv
    rw [intChars, if_neg hneg, hv, hw, Option.map_some,
      wire_digitChars hi (by rw [if_neg (by decide)]; omega) (by simp)]

/-! ### Fractions -/

theorem numeralChar_of_mem_digitChars {n : Nat} {c : Char} (h : c ∈ digitChars n) :
    NumeralChar c := .inl (isDigit_of_mem_digitChars h)

theorem numeralChar_of_mem_intChars {i : Int} {c : Char} (h : c ∈ intChars i) : NumeralChar c := by
  rw [intChars] at h
  split at h
  · obtain rfl | h := List.mem_cons.1 h
    · decide
    · exact numeralChar_of_mem_digitChars h
  · exact numeralChar_of_mem_digitChars h

theorem numeralChar_of_mem_write {n : Notation} {d : Decimal} {c : Char} (h : c ∈ d.write n) :
    NumeralChar c := by
  have hd : ∀ c ∈ digitChars d.digits, NumeralChar c := fun _ => numeralChar_of_mem_digitChars
  have hi : ∀ i, ∀ c ∈ intChars i, NumeralChar c := fun _ _ => numeralChar_of_mem_intChars
  have hs : NumeralChar '0' ∧ NumeralChar '.' ∧ NumeralChar 'e' ∧ NumeralChar '+' := by decide
  rw [Decimal.write] at h
  generalize digitChars d.digits = ds at h hd
  dsimp only at h
  split at h
  · grind [List.mem_of_mem_take, List.mem_of_mem_drop]
  · grind

theorem numeralChar_of_mem_floatChars {n : Notation} {x : Float} {c : Char}
    (h : c ∈ floatChars n x) : NumeralChar c := by
  have hs : NumeralChar '0' ∧ NumeralChar '.' ∧ NumeralChar '-' := by decide
  have hw : ∀ c ∈ (Binary.ofFloat x).shortest.write n, NumeralChar c :=
    fun _ => numeralChar_of_mem_write
  grind [floatChars]

/-! What is left after a numeral is a part of the text. -/

theorem readDigits_suffix (cs : List Char) : (readDigits cs).2 <:+ cs := List.dropWhile_suffix _

theorem readFraction_suffix {cs r : List Char} {f : Option (List Nat)}
    (h : readFraction cs = some (f, r)) : r <:+ cs := by
  fun_cases readFraction cs with
  | case1 cs rest hd => simp [readFraction, hd] at h
  | case2 cs ds rest hne hd =>
    have := readDigits_suffix cs
    grind [readFraction, List.suffix_cons_iff]
  | case3 hne => grind [readFraction, List.suffix_refl]

theorem readSign_suffix (cs : List Char) : (readSign cs).2 <:+ cs := by
  fun_cases readSign cs <;> simp

theorem readPower_suffix {cs r : List Char} {p : Option (Bool × List Nat)}
    (h : readPower cs = some (p, r)) : r <:+ cs := by
  cases cs with
  | nil => simp_all [readPower]
  | cons c cs =>
    have := (readDigits_suffix (readSign cs).2).trans (readSign_suffix cs)
    grind [readPower, List.suffix_cons_iff]

theorem readNumeral_suffix {cs r : List Char} {negative : Bool} {x : Numeral}
    (h : readNumeral negative cs = some (x, r)) : r <:+ cs := by
  rw [readNumeral] at h
  split at h
  · simp at h
  · simp at h
  · next whole rest _ _ hd =>
    obtain ⟨⟨f, r₁⟩, hf, h⟩ := Option.bind_eq_some_iff.1 h
    obtain ⟨⟨p, r₂⟩, hp, h⟩ := Option.bind_eq_some_iff.1 h
    obtain ⟨rfl, rfl⟩ : _ = x ∧ r₂ = r := by simpa using h
    have hrest := readDigits_suffix cs
    rw [hd] at hrest
    exact (readPower_suffix hp).trans ((readFraction_suffix hf).trans hrest)

/-- A numeral that is a whole text and is read to its end is read the same in front of another. -/
theorem readNumeral_whole {cs r rest : List Char} {negative : Bool} {x : Numeral}
    (hall : ∀ c ∈ cs, NumeralChar c) (h : readNumeral negative cs = some (x, r))
    (hb : blanks r = []) (hr : Stops rest) :
    readNumeral negative (cs ++ rest) = some (x, rest) := by
  have hnil : r = [] := by
    cases r with
    | nil => rfl
    | cons c r =>
      have hc := hall c ((readNumeral_suffix h).mem List.mem_cons_self)
      simp [blanks_cons hc.not_blank] at hb
  subst hnil
  exact readNumeral_append hr h

theorem readValue_whole {fuel fuel' : Nat} {cs r rest : List Char} {w : Wire}
    (hall : ∀ c ∈ cs, NumeralChar c) (h : readValue (fuel + 1) cs = some (w, r))
    (hb : blanks r = []) (hr : Stops rest) :
    readValue (fuel' + 1) (cs ++ rest) = some (w, rest) := by
  cases cs with
  | nil => simp [readValue, blanks, readNumeral, readDigits] at h
  | cons c cs =>
    by_cases hc : c = '-'
    · subst hc
      rw [List.cons_append, readValue_minus]
      rw [readValue_minus, Option.map_eq_some_iff] at h
      obtain ⟨⟨x, r'⟩, hx, he⟩ := h
      cases he
      rw [readNumeral_whole (fun d hd => hall d (List.mem_cons_of_mem _ hd)) hx hb hr,
        Option.map_some]
    · have hn := hall c List.mem_cons_self
      rw [List.cons_append, readValue_numeral _ _ hn hc, ← List.cons_append]
      rw [readValue_numeral _ _ hn hc, Option.map_eq_some_iff] at h
      obtain ⟨⟨x, r'⟩, hx, he⟩ := h
      cases he
      rw [readNumeral_whole hall hx hb hr, Option.map_some]

/-- The text of a number with a fraction is read as that number. -/
def Legible : Wire → Prop
  | .float x => ofJsonText (Wire.float x).toJsonText = some (.float x)
  | _ => True

theorem readValue_floatChars (fuel : Nat) {x : Float} (hx : x.isFinite = true)
    (h : Legible (.float x)) {rest : List Char} (hr : Stops rest) :
    readValue (fuel + 1) (floatChars numberNotation x ++ rest) = some (.float x, rest) := by
  simp only [Legible, ofJsonText, toJsonText, write, hx, if_true, String.toList_ofList] at h
  split at h
  · next w r hv =>
    split at h
    · next hb =>
      obtain rfl := Option.some.inj h
      exact readValue_whole (fun _ => numeralChar_of_mem_floatChars) hv (List.isEmpty_iff.1 hb) hr
    · cases h
  · cases h

/-! ### Texts -/

theorem hexUnit_hexDigit :
    ∀ n < 32, hexUnit '0' '0' (hexDigit (n / 16)) (hexDigit (n % 16)) = some n := by decide

theorem readUnits_of_ne {c : Char} (rest : List Char) (hq : c ≠ '"') (hs : c ≠ '\\')
    (h : 32 ≤ c.toNat) :
    readUnits (c :: rest) = (readUnits rest).map fun p => (c.toNat :: p.1, p.2) := by
  rw [readUnits.eq_5 c rest hq (fun _ _ _ _ _ e => absurd e hs) fun _ _ e => absurd e hs,
    if_neg (by omega)]
  cases readUnits rest <;> rfl

theorem readUnits_unescape {c : Char} {u : Nat} (rest : List Char) (h : unescape c = some u) :
    readUnits ('\\' :: c :: rest) = (readUnits rest).map fun p => (u :: p.1, p.2) := by
  have hu : c ≠ 'u' := by
    rintro rfl
    cases h
  rw [readUnits.eq_4 c rest fun _ _ _ _ _ e => absurd e hu, h]
  cases readUnits rest <;> rfl

theorem readUnits_hexUnit {a b c d : Char} {u : Nat} (rest : List Char)
    (h : hexUnit a b c d = some u) :
    readUnits ('\\' :: 'u' :: a :: b :: c :: d :: rest) =
      (readUnits rest).map fun p => (u :: p.1, p.2) := by
  rw [readUnits, h]
  cases readUnits rest <;> rfl

theorem readUnits_escape (c : Char) (rest : List Char) :
    readUnits (escape c ++ rest) = (readUnits rest).map fun p => (c.toNat :: p.1, p.2) := by
  unfold escape
  split
  · exact readUnits_unescape rest rfl
  · exact readUnits_unescape rest rfl
  · exact readUnits_unescape rest rfl
  · exact readUnits_unescape rest rfl
  · exact readUnits_unescape rest rfl
  · next hq hs _ _ _ =>
    split
    · next h => exact h ▸ readUnits_unescape rest rfl
    · split
      · next h => exact h ▸ readUnits_unescape rest rfl
      · split
        · next h => exact readUnits_hexUnit rest (hexUnit_hexDigit _ h)
        · next h => exact readUnits_of_ne rest hq hs (by omega)

theorem not_surrogate (c : Char) : isHigh c.toNat = false ∧ isLow c.toNat = false := by
  have hv : c.toNat < 0xD800 ∨ 0xDFFF < c.toNat ∧ c.toNat < 0x110000 := c.valid
  simp only [isHigh, isLow, Bool.and_eq_false_iff, decide_eq_false_iff_not]
  omega

theorem joinUnits_map_toNat (cs : List Char) : joinUnits (cs.map Char.toNat) = some cs := by
  induction cs with
  | nil => rfl
  | cons c cs ih =>
    obtain ⟨hh, hl⟩ := not_surrogate c
    cases cs with
    | nil => simp [joinUnits, hh, hl]
    | cons d cs =>
      rw [List.map_cons, List.map_cons, joinUnits, ← List.map_cons, ih]
      simp [hh, hl]

theorem readUnits_flatMap_escape (cs rest : List Char) :
    readUnits (cs.flatMap escape ++ '"' :: rest) = some (cs.map Char.toNat, rest) := by
  induction cs with
  | nil => rfl
  | cons c cs ih => simp [readUnits_escape, ih]

/-- A text comes back up to its closing quote. -/
theorem readText_quote (s : String) (rest : List Char) :
    readText (s.toList.flatMap escape ++ '"' :: rest) = some (.text s, rest) := by
  simp [readText, readUnits_flatMap_escape, joinUnits_map_toNat]

/-! ### Trees -/

/-- A layout of blanks alone, but for the colon. -/
structure Style.Spaced (style : Style) : Prop where
  lineBreak : ∀ depth, Blank (style.lineBreak depth)
  colon : ∃ sp, Blank sp ∧ style.colon = ':' :: sp

theorem Style.spaced_compact : Style.compact.Spaced where
  lineBreak _ := blank_nil
  colon := ⟨[], blank_nil, rfl⟩

theorem Style.spaced_pretty : Style.pretty.Spaced where
  lineBreak depth := by
    intro c hc
    obtain rfl | hc := List.mem_cons.1 hc
    · rfl
    · obtain ⟨-, rfl⟩ := List.mem_replicate.1 hc
      rfl
  colon := ⟨[' '], by simp [Blank, isBlank], rfl⟩

/-- What can stand first in a list. -/
def Opens (cs : List Char) : Prop := ∃ c r, cs = c :: r ∧ isBlank c = false ∧ c ≠ ']'

theorem Opens.append {cs : List Char} (h : Opens cs) (rest : List Char) : Opens (cs ++ rest) := by
  obtain ⟨c, r, rfl, hc⟩ := h
  exact ⟨c, r ++ rest, rfl, hc⟩

theorem Opens.blanks {cs : List Char} (h : Opens cs) : blanks cs = cs := by
  obtain ⟨c, r, rfl, hc, -⟩ := h
  exact blanks_cons hc

theorem opens_of_numeralChar {cs : List Char} (hne : cs ≠ []) (h : ∀ c ∈ cs, NumeralChar c) :
    Opens cs := by
  obtain ⟨c, r, rfl⟩ := List.exists_cons_of_ne_nil hne
  have hc := h c List.mem_cons_self
  refine ⟨c, r, rfl, hc.not_blank, ?_⟩
  rintro rfl
  exact absurd hc (by decide)

theorem stops_nil : Stops [] := fun _ h => by cases h

theorem ne_nil_of_readValue {fuel : Nat} {cs r : List Char} {w : Wire}
    (h : readValue (fuel + 1) cs = some (w, r)) : cs ≠ [] := by
  rintro rfl
  simp [readValue, blanks, readNumeral, readDigits] at h

theorem opens_write (style : Style) (depth : Nat) {w : Wire} (hp : w.Every Plain)
    (hl : w.Every Legible) : Opens (w.write style depth) := by
  cases w with
  | null | bytes b | broken => exact ⟨'n', _, rfl, rfl, by decide⟩
  | bool b => cases b <;> exact ⟨_, _, rfl, rfl, by decide⟩
  | text s => exact ⟨'"', _, rfl, rfl, by decide⟩
  | int i =>
    have hv := readValue_intChars 0 hp stops_nil
    rw [List.append_nil] at hv
    exact opens_of_numeralChar (ne_nil_of_readValue hv) fun _ => numeralChar_of_mem_intChars
  | float x =>
    have hx : x.isFinite = true := hp
    have hv := readValue_floatChars 0 hx hl stops_nil
    rw [List.append_nil] at hv
    rw [write, if_pos hx]
    exact opens_of_numeralChar (ne_nil_of_readValue hv) fun _ => numeralChar_of_mem_floatChars
  | list items => cases items <;> exact ⟨'[', _, rfl, rfl, by decide⟩
  | record members => cases members <;> exact ⟨'\x7b', _, rfl, rfl, by decide⟩

theorem readValue_blank {sp : List Char} (h : Blank sp) (fuel : Nat) (cs : List Char) :
    readValue fuel (sp ++ cs) = readValue fuel cs := by
  cases fuel with
  | zero => rw [readValue, readValue]
  | succ fuel => rw [readValue, readValue, blanks_append h]

theorem readItems_blank {sp : List Char} (h : Blank sp) (fuel : Nat) (cs : List Char) :
    readItems fuel (sp ++ cs) = readItems fuel cs := by
  cases fuel with
  | zero => rw [readItems, readItems]
  | succ fuel => rw [readItems, readItems, readValue_blank h]

theorem readMembers_blank {sp : List Char} (h : Blank sp) (fuel : Nat) (cs : List Char) :
    readMembers fuel (sp ++ cs) = readMembers fuel cs := by
  cases fuel with
  | zero => rw [readMembers, readMembers]
  | succ fuel => rw [readMembers, readMembers, blanks_append h]

theorem readValue_list {sp cs : List Char} (hsp : Blank sp) (h : Opens cs) (fuel : Nat) :
    readValue (fuel + 1) ('[' :: (sp ++ cs)) =
      (readItems fuel cs).map fun p => (.list p.1, p.2) := by
  obtain ⟨c, r, rfl, hc, hne⟩ := h
  have hb : isBlank '[' = false := rfl
  simp only [readValue, blanks_cons hb, blanks_append hsp, blanks_cons hc]
  split
  · next he => exact absurd (List.cons.inj he).1 hne
  · rfl

theorem readValue_record {sp : List Char} (hsp : Blank sp) (cs : List Char) (fuel : Nat) :
    readValue (fuel + 1) ('\x7b' :: (sp ++ '"' :: cs)) =
      (readMembers fuel ('"' :: cs)).map fun p => (.record p.1, p.2) := by
  have hb : isBlank '\x7b' = false := rfl
  have hq : isBlank '"' = false := rfl
  simp only [readValue, blanks_cons hb, blanks_append hsp, blanks_cons hq]
  rfl

theorem stops_cons {c : Char} (h : isBlank c = true ∨ c ∈ [',', ']', '\x7d']) (cs : List Char) :
    Stops (c :: cs) := by
  intro d hd
  obtain rfl := Option.some.inj hd
  simp only [isBlank, Bool.or_eq_true, beq_iff_eq, List.mem_cons, List.not_mem_nil, or_false] at h
  obtain (((rfl | rfl) | rfl) | rfl) | rfl | rfl | rfl := h <;> decide

theorem stops_close {sp : List Char} (h : Blank sp) {c : Char} (hc : c ∈ [',', ']', '\x7d'])
    (rest : List Char) : Stops (sp ++ c :: rest) := by
  cases sp with
  | nil => exact stops_cons (.inr hc) rest
  | cons d sp => exact stops_cons (.inl (h d List.mem_cons_self)) _

section
variable {style : Style} {fuel : Nat} {cs r rest : List Char} {w : Wire} (hs : style.Spaced)
  (s : String) (hv : readValue fuel cs = some (w, r))
include hs hv

theorem readMembers_last (hr : blanks r = '\x7d' :: rest) :
    readMembers (fuel + 1) (quote s ++ (style.colon ++ cs)) = some ([(.text s, w)], rest) := by
  obtain ⟨gap, hgap, hcolon⟩ := hs.colon
  have hq : isBlank '"' = false := rfl
  have hc : isBlank ':' = false := rfl
  simp only [quote, hcolon, List.append_assoc, List.cons_append, List.nil_append, readMembers,
    blanks_cons hq, blanks_cons hc, readText_quote, Option.bind_eq_bind, Option.bind_some,
    readValue_blank hgap, hv, hr]
  rfl

theorem readMembers_more (hr : blanks r = ',' :: rest) :
    readMembers (fuel + 1) (quote s ++ (style.colon ++ cs)) =
      (readMembers fuel rest).map fun p => ((.text s, w) :: p.1, p.2) := by
  obtain ⟨gap, hgap, hcolon⟩ := hs.colon
  have hq : isBlank '"' = false := rfl
  have hc : isBlank ':' = false := rfl
  simp only [quote, hcolon, List.append_assoc, List.cons_append, List.nil_append, readMembers,
    blanks_cons hq, blanks_cons hc, readText_quote, Option.bind_eq_bind, Option.bind_some,
    readValue_blank hgap, hv, hr]
  cases readMembers fuel rest <;> rfl

end

/-- With this much fuel every tree is read back whose text is no longer than the fuel. What follows a
value must end a numeral, and what follows the items or members of a container is its end. -/
structure Reads (style : Style) (fuel : Nat) : Prop where
  value : ∀ (depth : Nat) {w : Wire}, w.Every Plain → w.Every Legible →
    (w.write style depth).length ≤ fuel → ∀ {rest : List Char}, Stops rest →
      readValue fuel (w.write style depth ++ rest) = some (w, rest)
  items : ∀ (depth : Nat) {w : Wire} {ws : List Wire}, EveryItem Plain (w :: ws) →
    EveryItem Legible (w :: ws) →
    (w.write style depth).length + (writeItems style depth ws).length < fuel →
    ∀ {sp : List Char}, Blank sp → ∀ rest : List Char,
      readItems fuel (w.write style depth ++ (writeItems style depth ws ++ (sp ++ ']' :: rest))) =
        some (w :: ws, rest)
  members : ∀ (depth : Nat) {k w : Wire} {ms : List (Wire × Wire)}, Plain (.record ((k, w) :: ms)) →
    EveryMember Plain ((k, w) :: ms) → EveryMember Legible ((k, w) :: ms) →
    (w.write style depth).length + (writeMembers style depth ms).length < fuel →
    ∀ {sp : List Char}, Blank sp → ∀ rest : List Char,
      readMembers fuel (keyChars k ++ (style.colon ++ (w.write style depth ++
        (writeMembers style depth ms ++ (sp ++ '\x7d' :: rest))))) = some ((k, w) :: ms, rest)

theorem reads_zero (style : Style) : Reads style 0 where
  value depth w hp hl hf := by
    obtain ⟨c, r, hc, -⟩ := opens_write style depth hp hl
    simp [hc] at hf
  items _ _ _ _ _ hf := absurd hf (Nat.not_lt_zero _)
  members _ _ _ _ _ _ _ hf := absurd hf (Nat.not_lt_zero _)

section
variable {style : Style} {fuel : Nat} (hs : style.Spaced) (ih : Reads style fuel)
include hs ih

theorem Reads.succ_value (depth : Nat) {w : Wire} (hp : w.Every Plain) (hl : w.Every Legible)
    (hf : (w.write style depth).length ≤ fuel + 1) {rest : List Char} (hr : Stops rest) :
    readValue (fuel + 1) (w.write style depth ++ rest) = some (w, rest) := by
  cases w with
  | null => rfl
  | bool b => cases b <;> rfl
  | int i => exact readValue_intChars fuel hp hr
  | float x =>
    have hx : x.isFinite = true := hp
    rw [write, if_pos hx]
    exact readValue_floatChars fuel hx hl hr
  | text s =>
    rw [write, quote, List.append_assoc, List.cons_append, List.singleton_append]
    exact readText_quote s rest
  | bytes b | broken => exact hp.elim
  | list items =>
    cases items with
    | nil => rfl
    | cons w ws =>
      have hw := (opens_write style (depth + 1) hp.2.1 hl.2.1).append
      simp only [write, List.append_assoc, List.cons_append, List.length_append,
        List.length_cons, List.length_nil, List.nil_append] at hf ⊢
      rw [readValue_list (hs.lineBreak _) (hw _),
        ih.items (depth + 1) hp.2 hl.2 (by omega) (hs.lineBreak _), Option.map_some]
  | record members =>
    cases members with
    | nil => rfl
    | cons m ms =>
      obtain ⟨k, w⟩ := m
      obtain ⟨s, rfl : k = .text s⟩ := hp.1 _ List.mem_cons_self
      have hm := ih.members (depth + 1) hp.1 hp.2 hl.2
      simp only [write, List.append_assoc, List.cons_append, List.length_append,
        List.length_cons, List.length_nil, List.nil_append, keyChars, quote] at hf hm ⊢
      rw [readValue_record (hs.lineBreak _), hm (by omega) (hs.lineBreak _), Option.map_some]

theorem Reads.succ_items (depth : Nat) {w : Wire} {ws : List Wire}
    (hp : EveryItem Plain (w :: ws)) (hl : EveryItem Legible (w :: ws))
    (hf : (w.write style depth).length + (writeItems style depth ws).length < fuel + 1)
    {sp : List Char} (hsp : Blank sp) (rest : List Char) :
    readItems (fuel + 1)
      (w.write style depth ++ (writeItems style depth ws ++ (sp ++ ']' :: rest))) =
        some (w :: ws, rest) := by
  have hv {r : List Char} (hr : Stops r) := ih.value depth hp.1 hl.1 (by omega) hr
  cases ws with
  | nil =>
    have hb : isBlank ']' = false := rfl
    rw [writeItems, List.nil_append, readItems, hv (stops_close hsp (by decide) rest)]
    simp [blanks_append hsp, blanks_cons hb]
  | cons w' ws =>
    have hb : isBlank ',' = false := rfl
    simp only [writeItems, List.append_assoc, List.cons_append, List.length_append,
      List.length_cons] at hf ⊢
    rw [readItems, hv (stops_cons (.inr (by decide)) _)]
    simp [blanks_cons hb, readItems_blank (hs.lineBreak _),
      ih.items depth hp.2 hl.2 (by omega) hsp]

theorem Reads.succ_members (depth : Nat) {k w : Wire} {ms : List (Wire × Wire)}
    (hk : Plain (.record ((k, w) :: ms))) (hp : EveryMember Plain ((k, w) :: ms))
    (hl : EveryMember Legible ((k, w) :: ms))
    (hf : (w.write style depth).length + (writeMembers style depth ms).length < fuel + 1)
    {sp : List Char} (hsp : Blank sp) (rest : List Char) :
    readMembers (fuel + 1) (keyChars k ++ (style.colon ++ (w.write style depth ++
      (writeMembers style depth ms ++ (sp ++ '\x7d' :: rest))))) = some ((k, w) :: ms, rest) := by
  obtain ⟨s, rfl : k = .text s⟩ := hk _ List.mem_cons_self
  have hv {r : List Char} (hr : Stops r) := ih.value depth hp.2.1 hl.2.1 (by omega) hr
  cases ms with
  | nil =>
    have hb : isBlank '\x7d' = false := rfl
    rw [writeMembers, List.nil_append, keyChars,
      readMembers_last hs s (hv (stops_close hsp (by decide) rest))]
    rw [blanks_append hsp, blanks_cons hb]
  | cons m ms =>
    obtain ⟨k, w'⟩ := m
    have hb : isBlank ',' = false := rfl
    have hm := ih.members depth (fun m hm => hk m (List.mem_cons_of_mem _ hm)) hp.2.2 hl.2.2
    simp only [writeMembers, List.append_assoc, List.cons_append, List.length_append,
      List.length_cons] at hf ⊢
    rw [keyChars, readMembers_more hs s (hv (stops_cons (.inr (by decide)) _)) (blanks_cons hb),
      readMembers_blank (hs.lineBreak _), hm (by omega) hsp, Option.map_some]

end

-- The induction is on the fuel, as the reader recurses on it: a container of one step is read by the
-- items and members of the step before.
theorem reads {style : Style} (hs : style.Spaced) (fuel : Nat) : Reads style fuel := by
  induction fuel with
  | zero => exact reads_zero style
  | succ fuel ih =>
    exact ⟨ih.succ_value hs, ih.succ_items hs, ih.succ_members hs⟩

/-- A tree that is written in any layout of blanks is read back. -/
theorem ofJsonText_write {style : Style} (hs : style.Spaced) {w : Wire} (hp : w.Every Plain)
    (hl : w.Every Legible) : ofJsonText (String.ofList (w.write style 0)) = some w := by
  have h := (reads hs (2 * (w.write style 0).length + 2)).value 0 hp hl (by omega) stops_nil
  rw [List.append_nil] at h
  simp only [ofJsonText, String.toList_ofList, h]
  rfl

end Dataflow.Wire

namespace Dataflow.Json

/-- A value comes back from its text exactly if there is room for its containers. -/
theorem parse_render {v : Json} (h : v.Sound) (hl : v.toWire.Every Wire.Legible) :
    parse (render v) = if v.toWire.depth ≤ textRoom then some v else none := by
  rw [parse, render, Wire.toJsonText,
    Wire.ofJsonText_write Wire.Style.spaced_compact (plain_toWire v h) hl, Option.bind_some,
    ofWire?_toWire textRoom v h]

end Dataflow.Json
