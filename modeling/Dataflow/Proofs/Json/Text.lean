import Dataflow.Json.Parser
import Dataflow.Json.Printer

/-!
# Reading what was written

The compact text of a tree is read back as the same tree (`Json.parse?_text`). That
holds of the trees that spell something: every string has text, and every number is
spelled as the grammar demands (`Json.Plain`).

A text ends where its tree ends, except that a number goes on as long as there are
digits. So what is read back is stated for a tree with something after it that does
not continue a number (`Json.Reads`), which the printer provides.
-/

namespace Dataflow

/-! ## Digits -/

/-- A non-empty run of digits. -/
def DigitRun (ds : List Char) : Prop := ds ≠ [] ∧ ∀ c ∈ ds, c.isDigit = true

namespace Decimal

theorem digits_digitChars (n : Nat) : DigitRun (digitChars n) :=
  ⟨Nat.toDigits_ne_nil, fun _ hc => Nat.isDigit_of_mem_toDigits (by decide) (by decide) hc⟩

theorem digitsValue_digitChars (n : Nat) : digitsValue (digitChars n) = n :=
  Nat.ofDigitChars_toDigits (by decide) (by decide)

/-- Zero is the only number that is spelled with a zero in front. -/
theorem digitChars_zero {n : Nat} {ds : List Char} (h : digitChars n = '0' :: ds) : ds = [] := by
  have hpos : ∀ n, 0 < n → ∀ ds, Nat.toDigits 10 n ≠ '0' :: ds := by
    intro n
    induction n using Nat.strongRecOn with
    | _ n ih =>
      intro hn ds hds
      rcases Nat.lt_or_ge n 10 with hlt | hge
      · rw [Nat.toDigits_of_lt_base hlt] at hds
        have hdigit : n.digitChar = '0' := (List.cons.inj hds).1
        have hall : ∀ k < 10, 0 < k → k.digitChar ≠ '0' := by decide
        exact hall n hlt hn hdigit
      · rw [Nat.toDigits_of_base_le (by decide) hge] at hds
        have hdiv : 0 < n / 10 := Nat.div_pos hge (by decide)
        cases hq : Nat.toDigits 10 (n / 10) with
        | nil => exact absurd hq Nat.toDigits_ne_nil
        | cons c cs =>
          rw [hq] at hds
          cases hds
          exact ih (n / 10) (Nat.div_lt_self hn (by decide)) hdiv cs hq
  rcases Nat.eq_zero_or_pos n with rfl | hn
  · exact (List.cons.inj h).2.symm
  · exact absurd h (hpos n hn ds)

end Decimal

/-- A numeral as the grammar has it. -/
structure Numeral.Proper (n : Numeral) : Prop where
  whole : DigitRun n.whole
  leading : ∀ ds, n.whole = '0' :: ds → ds = []
  fraction : ∀ ds, n.fraction = some ds → DigitRun ds
  exponent : ∀ down ds, n.exponent = some (down, ds) → DigitRun ds

theorem Numeral.proper_ofNat (n : Nat) : (Numeral.ofNat n).Proper where
  whole := Decimal.digits_digitChars n
  leading _ h := Decimal.digitChars_zero h
  fraction := nofun
  exponent := nofun

theorem Numeral.proper_ofInt (i : Int) : (Numeral.ofInt i).Proper where
  whole := Decimal.digits_digitChars i.natAbs
  leading _ h := Decimal.digitChars_zero h
  fraction := nofun
  exponent := nofun

namespace Json

/-! ## Numbers -/

/-- Whether a character may continue a number. -/
def continues (c : Char) : Bool := c.isDigit || c == '.' || c == 'e' || c == 'E'

/-- A text that does not continue a number. -/
def Follows (rest : List Char) : Prop := ∀ c ∈ rest.head?, continues c = false

theorem not_isDigit_of_follows {rest : List Char} (h : Follows rest) :
    ∀ c ∈ rest.head?, c.isDigit = false := by
  intro c hc
  have := h c hc
  simp only [continues, Bool.or_eq_false_iff] at this
  exact this.1.1.1

theorem readDigits_append {ds rest : List Char} (hds : DigitRun ds)
    (hrest : ∀ c ∈ rest.head?, c.isDigit = false) : readDigits (ds ++ rest) = some (ds, rest) := by
  have hstop : rest.takeWhile Char.isDigit = [] ∧ rest.dropWhile Char.isDigit = rest := by
    cases rest with
    | nil => exact ⟨rfl, rfl⟩
    | cons c cs =>
      have hc := hrest c rfl
      exact ⟨List.takeWhile_cons_of_neg (by simp [hc]), List.dropWhile_cons_of_neg (by simp [hc])⟩
  unfold readDigits
  rw [List.takeWhile_append_of_pos hds.2, List.dropWhile_append_of_pos hds.2, hstop.1, hstop.2,
    List.append_nil]
  simp only
  rw [if_neg (by simpa using hds.1)]

theorem readWhole_append {ds rest : List Char} (hds : DigitRun ds)
    (hleading : ∀ cs, ds = '0' :: cs → cs = []) (hrest : ∀ c ∈ rest.head?, c.isDigit = false) :
    readWhole (ds ++ rest) = some (ds, rest) := by
  unfold readWhole
  rw [readDigits_append hds hrest]
  split
  · rename_i heq
    cases heq
    cases hleading _ rfl
  · rfl

theorem readSign_append {ds rest : List Char} (hds : DigitRun ds) (negative : Bool) :
    readSign ((if negative then ['-'] else []) ++ ds ++ rest) = (negative, ds ++ rest) := by
  cases negative with
  | true => rfl
  | false =>
    cases ds with
    | nil => exact absurd rfl hds.1
    | cons c cs =>
      have hc := hds.2 c (List.mem_cons_self ..)
      show readSign (c :: (cs ++ rest)) = _
      unfold readSign
      split
      · rename_i heq
        cases heq
        exact absurd hc (by decide)
      · rfl

def fractionText : Option (List Char) → List Char
  | none => []
  | some ds => '.' :: ds

def exponentText : Option (Bool × List Char) → List Char
  | none => []
  | some (down, ds) => 'e' :: (if down then '-' else '+') :: ds

theorem writeNumeral_eq (n : Numeral) : writeNumeral n =
    (if n.negative then ['-'] else []) ++ n.whole ++ fractionText n.fraction ++
      exponentText n.exponent := rfl

theorem readExponent_append {exponent : Option (Bool × List Char)} {rest : List Char}
    (h : ∀ down ds, exponent = some (down, ds) → DigitRun ds) (hrest : Follows rest) :
    readExponent (exponentText exponent ++ rest) = some (exponent, rest) := by
  cases exponent with
  | none =>
    cases rest with
    | nil => rfl
    | cons c cs =>
      have hc := hrest c rfl
      simp only [continues, Bool.or_eq_false_iff, beq_eq_false_iff_ne] at hc
      show readExponent (c :: cs) = _
      unfold readExponent
      dsimp only
      rw [if_neg (by simp [hc.1.2, hc.2])]
  | some x =>
    obtain ⟨down, ds⟩ := x
    have hds := readDigits_append (h down ds rfl) (not_isDigit_of_follows hrest)
    cases down with
    | true =>
      show (readDigits (ds ++ rest)).map _ = _
      rw [hds]
      rfl
    | false =>
      show (readDigits (ds ++ rest)).map _ = _
      rw [hds]
      rfl

theorem readFraction_append {fraction : Option (List Char)} {rest : List Char}
    (h : ∀ ds, fraction = some ds → DigitRun ds)
    (hrest : ∀ c ∈ rest.head?, c.isDigit = false ∧ c ≠ '.') :
    readFraction (fractionText fraction ++ rest) = some (fraction, rest) := by
  cases fraction with
  | none =>
    show readFraction rest = _
    unfold readFraction
    split
    · exact absurd rfl (hrest '.' rfl).2
    · rfl
  | some ds =>
    show (readDigits (ds ++ rest)).map _ = _
    rw [readDigits_append (h ds rfl) fun c hc => (hrest c hc).1]
    rfl

theorem head_exponentText (exponent : Option (Bool × List Char)) {rest : List Char}
    (hrest : Follows rest) :
    ∀ c ∈ (exponentText exponent ++ rest).head?, c.isDigit = false ∧ c ≠ '.' := by
  intro c hc
  cases exponent with
  | none =>
    have := hrest c hc
    simp only [continues, Bool.or_eq_false_iff, beq_eq_false_iff_ne] at this
    exact ⟨this.1.1.1, this.1.1.2⟩
  | some x =>
    cases hc
    decide

theorem head_fractionText (fraction : Option (List Char)) {rest : List Char}
    (hrest : ∀ c ∈ rest.head?, c.isDigit = false) :
    ∀ c ∈ (fractionText fraction ++ rest).head?, c.isDigit = false := by
  intro c hc
  cases fraction with
  | none => exact hrest c hc
  | some ds =>
    cases hc
    decide

/-- A number is read back, up to something that does not continue it. -/
theorem readNumeral_append {n : Numeral} (h : n.Proper) {rest : List Char} (hrest : Follows rest) :
    readNumeral (writeNumeral n ++ rest) = some (n, rest) := by
  have hexponent := readExponent_append h.exponent hrest
  have hafter := head_exponentText n.exponent hrest
  have hfraction := readFraction_append h.fraction hafter
  have hwhole := readWhole_append h.whole h.leading
    (head_fractionText n.fraction fun c hc => (hafter c hc).1)
  rw [writeNumeral_eq, List.append_assoc, List.append_assoc]
  unfold readNumeral
  rw [readSign_append h.whole]
  simp only [hwhole, hfraction, hexponent, bind, Option.bind_some]
  rfl

/-! ## Strings -/

/-- The piece that a character of a string is read as. -/
def pieceOf (c : Char) : Piece :=
  if c.toNat < 0x20 && c.toNat ∉ [0x8, 0x9, 0xA, 0xC, 0xD] then .unit c.toNat else .char c

/-- A control character is named by two hexadecimal digits. -/
theorem unit?_control :
    ∀ n < 0x20, unit? '0' '0' (hexChar (n / 16)) (hexChar (n % 16)) = some n := by
  decide

theorem eq_ofNat_of_toNat {c : Char} {n : Nat} (h : c.toNat = n) : c = Char.ofNat n := by
  rw [← h, Char.ofNat_toNat]

theorem pieces_plain {c : Char} (hc : ¬ c.toNat < 0x20) (hquote : c ≠ '"') (hslash : c ≠ '\\')
    (cs : List Char) : pieces (c :: cs) = (pieces cs).map fun x => (.char c :: x.1, x.2) := by
  rw [pieces.eq_def (c :: cs)]
  split
  · rename_i heq; cases heq
  · rename_i heq; cases heq; exact absurd rfl hquote
  · rename_i heq; cases heq; exact absurd rfl hslash
  · rename_i heq; cases heq; exact absurd rfl hslash
  · rename_i heq
    cases heq
    rw [if_neg (by simp [hc, hslash])]
    cases pieces cs <;> rfl

/-- Each character is read as its piece. -/
theorem pieces_escape (c : Char) (cs : List Char) :
    pieces (escapeChar c ++ cs) = (pieces cs).map fun x => (pieceOf c :: x.1, x.2) := by
  have hbind : ∀ (x : Piece), (pieces cs).bind (fun y => some (x :: y.1, y.2)) =
      (pieces cs).map fun y => (x :: y.1, y.2) := fun x => by
    cases pieces cs <;> rfl
  unfold escapeChar
  split
  · rename_i h; subst h; exact hbind (.char '"')
  split
  · rename_i h; subst h; exact hbind (.char '\\')
  split
  · rename_i h; rw [eq_ofNat_of_toNat h]; exact hbind (.char (Char.ofNat 0x8))
  split
  · rename_i h; rw [eq_ofNat_of_toNat h]; exact hbind (.char (Char.ofNat 0x9))
  split
  · rename_i h; rw [eq_ofNat_of_toNat h]; exact hbind (.char (Char.ofNat 0xA))
  split
  · rename_i h; rw [eq_ofNat_of_toNat h]; exact hbind (.char (Char.ofNat 0xC))
  split
  · rename_i h; rw [eq_ofNat_of_toNat h]; exact hbind (.char (Char.ofNat 0xD))
  split
  · rename_i h₈ h₉ hA hC hD hlt
    have hpiece : pieceOf c = .unit c.toNat := by
      rw [pieceOf, if_pos]
      simp [hlt, h₈, h₉, hA, hC, hD]
    show ((unit? '0' '0' (hexChar (c.toNat / 16)) (hexChar (c.toNat % 16))).bind fun n =>
      (pieces cs).bind fun x => some (.unit n :: x.1, x.2)) = _
    rw [unit?_control c.toNat hlt, hpiece]
    exact hbind (.unit c.toNat)
  · rename_i hquote hslash _ _ _ _ _ hlt
    rw [List.singleton_append, pieces_plain hlt hquote hslash]
    rw [show pieceOf c = .char c from if_neg (by simp [hlt])]

theorem pieces_escapes (cs rest : List Char) :
    pieces (cs.flatMap escapeChar ++ '"' :: rest) = some (cs.map pieceOf, rest) := by
  induction cs with
  | nil => rfl
  | cons c cs ih =>
    rw [List.flatMap_cons, List.append_assoc, pieces_escape, ih]
    rfl

/-- A unit that is no half of a pair is a character, whatever comes after it. -/
theorem joinPieces_unit {n : Nat} (hhigh : isHighHalf n = false) (hlow : isLowHalf n = false)
    (ps : List Piece) :
    joinPieces (.unit n :: ps) = (joinPieces ps).map (Char.ofNat n :: ·) := by
  cases ps with
  | nil => simp [joinPieces, hhigh, hlow]
  | cons p ps =>
    cases p with
    | char c => simp [joinPieces, hhigh, hlow]
    | unit m => simp [joinPieces, hhigh, hlow]

/-- The pieces of a text are joined to the text. -/
theorem joinPieces_map (cs : List Char) : joinPieces (cs.map pieceOf) = some cs := by
  induction cs with
  | nil => rfl
  | cons c cs ih =>
    have hpiece : joinPieces (pieceOf c :: cs.map pieceOf) =
        (joinPieces (cs.map pieceOf)).map (c :: ·) := by
      rw [pieceOf]
      split
      · rename_i hc
        have hlt : c.toNat < 0x20 := by
          simp only [Bool.and_eq_true, decide_eq_true_eq] at hc
          exact hc.1
        rw [joinPieces_unit, Char.ofNat_toNat]
        · simp only [isHighHalf, Bool.and_eq_false_iff, decide_eq_false_iff_not]
          omega
        · simp only [isLowHalf, Bool.and_eq_false_iff, decide_eq_false_iff_not]
          omega
      · rfl
    rw [List.map_cons, hpiece, ih]
    rfl

theorem readString_append (s : String) (rest : List Char) :
    readString (s.toList.flatMap escapeChar ++ '"' :: rest) = some (some s, rest) := by
  unfold readString
  rw [pieces_escapes, Option.map_some]
  simp only [joinPieces_map, Option.map_some, String.ofList_toList]

theorem writeString_append (s : String) (rest : List Char) :
    writeString s ++ rest = '"' :: (s.toList.flatMap escapeChar ++ '"' :: rest) := by
  simp [writeString]

/-! ## Values -/

/-- A tree that spells something. -/
inductive Plain : Json → Prop
  | null : Plain .null
  | bool (b : Bool) : Plain (.bool b)
  | number {n : Numeral} (h : n.Proper) : Plain (.number n)
  | string (s : String) : Plain (.string (some s))
  | array {js : List Json} (h : ∀ j ∈ js, Plain j) : Plain (.array js)
  | record {ms : List (String × Json)} (h : ∀ m ∈ ms, Plain m.2) : Plain (.record ms)

/-- The text of a tree is read back as the tree, up to something that does not
continue it. -/
def Reads (j : Json) : Prop :=
  ∀ (depth : Nat) (rest : List Char), (write j).length < depth → Follows rest →
    readValue depth (write j ++ rest) = some (j, rest)

theorem skipSpaces_cons {c : Char} (h : isSpace c = false) (cs : List Char) :
    skipSpaces (c :: cs) = c :: cs :=
  List.dropWhile_cons_of_neg (by simp [h])

theorem writeNumeral_head {n : Numeral} (h : n.Proper) :
    ∃ c cs, writeNumeral n = c :: cs ∧ (c = '-' ∨ c.isDigit = true) := by
  rw [writeNumeral_eq]
  cases n.negative with
  | true => exact ⟨'-', _, rfl, Or.inl rfl⟩
  | false =>
    have hwhole := h.whole
    cases hw : n.whole with
    | nil => exact absurd hw hwhole.1
    | cons c cs =>
      rw [hw] at hwhole
      exact ⟨c, _, rfl, Or.inr (hwhole.2 c (List.mem_cons_self ..))⟩

/-- The text of a tree starts neither with a blank nor with a closing bracket. -/
theorem write_head {j : Json} (h : Plain j) :
    ∃ c cs, write j = c :: cs ∧ isSpace c = false ∧ c ≠ ']' := by
  cases h with
  | null => exact ⟨_, _, rfl, rfl, by decide⟩
  | bool b =>
    cases b with
    | true => exact ⟨_, _, rfl, rfl, by decide⟩
    | false => exact ⟨_, _, rfl, rfl, by decide⟩
  | number hn =>
    obtain ⟨c, cs, hcs, hc⟩ := writeNumeral_head hn
    refine ⟨c, cs, hcs, ?_⟩
    refine ⟨?_, by rintro rfl; exact absurd hc (by decide)⟩
    simp only [isSpace, Bool.or_eq_false_iff, decide_eq_false_iff_not]
    refine ⟨⟨⟨?_, ?_⟩, ?_⟩, ?_⟩ <;> (rintro rfl; exact absurd hc (by decide))
  | string s => exact ⟨_, _, rfl, rfl, by decide⟩
  | @array js _ =>
    cases js with
    | nil => exact ⟨_, _, rfl, rfl, by decide⟩
    | cons j js => exact ⟨_, _, rfl, rfl, by decide⟩
  | @record ms _ =>
    cases ms with
    | nil => exact ⟨_, _, rfl, rfl, by decide⟩
    | cons m ms => exact ⟨_, _, rfl, rfl, by decide⟩

theorem reads_number {n : Numeral} (h : n.Proper) : Reads (.number n) := by
  intro depth rest hdepth hrest
  have hread := readNumeral_append h hrest
  obtain ⟨c, cs, hcs, hc⟩ := writeNumeral_head h
  obtain ⟨c', cs', hcs', hspace, -⟩ := write_head (.number h)
  cases hcs.symm.trans hcs'
  cases depth with
  | zero => cases hdepth
  | succ depth =>
    rw [readValue, write]
    rw [hcs, List.cons_append] at hread ⊢
    rw [skipSpaces_cons hspace]
    -- No other value starts with a sign or a digit.
    split
    iterate 6 (rename_i heq; rw [(List.cons.inj heq).1] at hc; exact absurd hc (by decide))
    rw [hread]
    rfl

theorem reads_string (s : String) : Reads (.string (some s)) := by
  intro depth rest hdepth _
  cases depth with
  | zero => cases hdepth
  | succ depth =>
    rw [readValue, write, Option.getD_some, writeString_append, skipSpaces_cons rfl]
    simp only [readString_append, Option.map_some]

/-- The items of an array after its bracket. -/
theorem readItems_append {j : Json} {js : List Json} (hr : ∀ x ∈ j :: js, Reads x) (depth : Nat)
    (rest : List Char) (hdepth : (write j).length + (writeItems js).length < depth) :
    readItems depth (write j ++ (writeItems js ++ rest)) = some (j :: js, rest) := by
  have hread := hr j (List.mem_cons_self ..)
  induction js generalizing j depth with
  | nil =>
    cases depth with
    | zero => cases hdepth
    | succ depth =>
      have hj := hread depth (']' :: rest) (Nat.lt_of_succ_lt_succ hdepth)
        (fun c hc => by cases hc; rfl)
      rw [readItems, show writeItems [] ++ rest = ']' :: rest from rfl, hj]
      rfl
  | cons j' js ih =>
    cases depth with
    | zero => cases hdepth
    | succ depth =>
      simp only [writeItems, List.length_cons, List.length_append] at hdepth
      have hj := hread depth (',' :: (write j' ++ (writeItems js ++ rest))) (by omega)
        (fun c hc => by cases hc; rfl)
      have hjs := ih (fun x hx => hr x (List.mem_cons_of_mem _ hx)) depth (by omega)
        (hr j' (List.mem_cons_of_mem _ (List.mem_cons_self ..)))
      rw [readItems, show writeItems (j' :: js) ++ rest =
        ',' :: (write j' ++ (writeItems js ++ rest)) by simp [writeItems], hj]
      show (readItems depth (write j' ++ (writeItems js ++ rest))).bind _ = _
      rw [hjs]
      rfl

theorem readName_append (s : String) (rest : List Char) :
    readName (writeString s ++ ':' :: rest) = some (some s, rest) := by
  rw [writeString_append, readName, skipSpaces_cons rfl]
  simp only [readString_append]
  rfl

/-- The members of an object after its brace. -/
theorem readMembers_append {k : String} {v : Json} {ms : List (String × Json)}
    (hr : ∀ m ∈ (k, v) :: ms, Reads m.2) (depth : Nat) (rest : List Char)
    (hdepth : (write v).length + (writeMembers (ms.map fun m => (some m.1, m.2))).length < depth) :
    readMembers depth (writeString k ++ ':' ::
      (write v ++ (writeMembers (ms.map fun m => (some m.1, m.2)) ++ rest))) =
        some ((some k, v) :: ms.map fun m => (some m.1, m.2), rest) := by
  have hread : Reads v := hr (k, v) (List.mem_cons_self ..)
  induction ms generalizing k v depth with
  | nil =>
    cases depth with
    | zero => cases hdepth
    | succ depth =>
      have hv := hread depth ('\x7d' :: rest) (Nat.lt_of_succ_lt_succ hdepth)
        (fun c hc => by cases hc; rfl)
      rw [readMembers, readName_append]
      show (readValue depth (write v ++ '\x7d' :: rest)).bind _ = _
      rw [hv]
      rfl
  | cons m ms ih =>
    obtain ⟨k', v'⟩ := m
    cases depth with
    | zero => cases hdepth
    | succ depth =>
      have htext : writeMembers (((k', v') :: ms).map fun m => (some m.1, m.2)) ++ rest =
          ',' :: (writeString k' ++ ':' ::
            (write v' ++ (writeMembers (ms.map fun m => (some m.1, m.2)) ++ rest))) := by
        simp [writeMembers]
      simp only [List.map_cons, writeMembers, List.length_cons, List.length_append] at hdepth
      have hv := hread depth (',' :: (writeString k' ++ ':' ::
        (write v' ++ (writeMembers (ms.map fun m => (some m.1, m.2)) ++ rest)))) (by omega)
        (fun c hc => by cases hc; rfl)
      have hms := ih (fun x hx => hr x (List.mem_cons_of_mem _ hx)) depth (by omega)
        (hr (k', v') (List.mem_cons_of_mem _ (List.mem_cons_self ..)))
      rw [readMembers, readName_append, htext]
      show (readValue depth (write v ++ _)).bind _ = _
      rw [hv]
      show (readMembers depth (writeString k' ++ _)).bind _ = _
      rw [hms]
      rfl

/-- The text of a tree that spells something is read back. -/
theorem reads_of_plain {j : Json} (h : Plain j) : Reads j := by
  induction h with
  | null =>
    intro depth rest hdepth _
    cases depth with
    | zero => cases hdepth
    | succ depth => rfl
  | bool b =>
    intro depth rest hdepth _
    cases depth with
    | zero => cases hdepth
    | succ depth => cases b <;> rfl
  | number h => exact reads_number h
  | string s => exact reads_string s
  | @array js h ih =>
    intro depth rest hdepth _
    cases depth with
    | zero => cases hdepth
    | succ depth =>
      cases js with
      | nil => rfl
      | cons j js =>
        obtain ⟨c, cs, hcs, hspace, hclose⟩ := write_head (h j (List.mem_cons_self ..))
        have hitems := readItems_append ih depth rest (by
          simp only [write, List.length_cons, List.length_append] at hdepth; omega)
        rw [show write (.array (j :: js)) ++ rest = '[' :: (write j ++ (writeItems js ++ rest)) by
          simp [write], readValue, skipSpaces_cons rfl]
        rw [hcs, List.cons_append] at hitems ⊢
        simp only [skipSpaces_cons hspace]
        split
        · rename_i heq
          exact absurd (List.cons.inj heq).1 hclose
        · rw [hitems]
          rfl
  | @record ms h ih =>
    intro depth rest hdepth _
    cases depth with
    | zero => cases hdepth
    | succ depth =>
      cases ms with
      | nil => rfl
      | cons m ms =>
        obtain ⟨k, v⟩ := m
        have hmembers := readMembers_append ih depth rest (by
          simp only [record, List.map_cons, write, List.length_cons, List.length_append] at hdepth
          omega)
        rw [show write (record ((k, v) :: ms)) ++ rest = '\x7b' :: (writeString k ++ ':' ::
          (write v ++ (writeMembers (ms.map fun m => (some m.1, m.2)) ++ rest))) by
            simp [write, record], readValue, skipSpaces_cons rfl]
        rw [writeString_append] at hmembers ⊢
        simp only [skipSpaces_cons (show isSpace '"' = false from rfl)]
        show Option.map _ (readMembers depth ('"' :: _)) = _
        rw [hmembers]
        rfl

/-- The text of a tree that spells something is the text of that tree. -/
theorem parse?_text {j : Json} (h : Plain j) : parse? j.text = some j := by
  have hread := reads_of_plain h ((write j).length + 1) [] (Nat.lt_succ_self _) nofun
  rw [List.append_nil] at hread
  unfold parse? text
  simp only [String.toList_ofList, hread, bind, Option.bind_some]
  rfl

end Json

end Dataflow
