import Mathlib.Data.List.TakeWhile
import PortWire.Document.Grammar
import PortWire.Json.Token

/-!
# Scanning texts of documents

Blanks, words, numbers and strings of a text that spells a document are found as tokens. Words
and numbers run on as far as their characters do, so this asks of what follows them that it begins
with no such character; in a text a blank, a comma, a bracket, a colon or the end follows. A
character of a string is found as itself, by its number or as two numbers, whichever way it was
spelled.
-/

namespace PortWire.Json

open Document

/-! ## Digits -/

/-- Only zero is written with a zero in front. -/
theorem toDigits_zero_cons {n : Nat} {ds : List Char} (h : Nat.toDigits 10 n = '0' :: ds) :
    ds = [] ∧ n = 0 := by
  induction n using Nat.strongRecOn generalizing ds with
  | ind n ih =>
    by_cases small : n < 10
    · rw [Nat.toDigits_of_lt_base small] at h
      obtain ⟨digit, rest⟩ := List.cons.inj h
      have value : Nat.ofDigitChars 10 [n.digitChar] 0 = n := by
        rw [← Nat.toDigits_of_lt_base small, Nat.ofDigitChars_ten_toDigits]
      rw [digit] at value
      exact ⟨rest.symm, value.symm⟩
    · rw [Nat.toDigits_of_base_le (by decide) (Nat.le_of_not_lt small)] at h
      cases front : Nat.toDigits 10 (n / 10) with
      | nil => exact absurd front Nat.toDigits_ne_nil
      | cons d others =>
        rw [front, List.cons_append] at h
        obtain ⟨rfl, _⟩ := List.cons.inj h
        have zero := (ih (n / 10) (by omega) front).2
        omega

theorem isDigit_toDigits (n : Nat) : ∀ c ∈ Nat.toDigits 10 n, c.isDigit :=
  fun _ hc => Nat.isDigit_of_mem_toDigits (by decide) (by decide) hc

namespace Numeral

theorem whole?_toDigits (n : Nat) : whole? (Nat.toDigits 10 n) = some n := by
  have all : digits (Nat.toDigits 10 n) = Nat.toDigits 10 n :=
    List.takeWhile_eq_self_iff.mpr (isDigit_toDigits n)
  unfold whole?
  rw [all]
  split
  · next empty => exact absurd empty Nat.toDigits_ne_nil
  · next zero => rw [(toDigits_zero_cons zero).2]
  · next rest notAlone leading => exact absurd (toDigits_zero_cons leading).1 notAlone
  · rw [number, Nat.ofDigitChars_ten_toDigits]

theorem sign_toDigits (n : Nat) : sign (Nat.toDigits 10 n) = (false, Nat.toDigits 10 n) := by
  unfold sign
  split
  · next cs minus =>
    have digit : '-'.isDigit := isDigit_toDigits n '-' (by rw [minus]; exact List.mem_cons_self)
    exact absurd digit (by decide)
  · rfl

/-- The numeral that spells an integer. -/
def ofInt (i : Int) : Numeral where
  negative := i < 0
  whole := i.natAbs

theorem ofChars?_chars (n : Document.Number) : ofChars? n.chars = some (ofInt n.value) := by
  have signed : sign n.chars = (decide (n.value < 0), Nat.toDigits 10 n.value.natAbs) := by
    rw [Number.chars]
    by_cases negative : n.value < 0
    · rw [if_pos negative, decide_eq_true negative]
      rfl
    · rw [if_neg negative, decide_eq_false negative]
      exact sign_toDigits _
  have behind : behindDigits (Nat.toDigits 10 n.value.natAbs) = [] :=
    List.dropWhile_eq_nil_iff.mpr (isDigit_toDigits _)
  simp only [ofChars?, signed, whole?_toDigits, behind]
  rfl

theorem int?_ofInt (i : Int) : (ofInt i).int? = some i := by
  by_cases negative : i < 0
  · have whole : ¬ i.natAbs = 0 := by omega
    have value : -(i.natAbs : Int) = i := by omega
    simp only [int?, ofInt, decide_eq_true negative, if_true, if_neg whole, value]
  · have value : (i.natAbs : Int) = i := by omega
    simp only [int?, ofInt, decide_eq_false negative, Bool.false_eq_true, if_false, value]

end Numeral

/-- Nothing that would make a word or a number longer comes first. -/
def Delimited (cs : List Char) : Prop :=
  ∀ c ∈ cs.head?, c.isLower = false ∧ Scan.isNumberPart c = false

theorem delimited_nil : Delimited [] := by
  intro c hc
  cases hc

theorem delimited_cons {c : Char} (h : c.isLower = false ∧ Scan.isNumberPart c = false)
    (cs : List Char) : Delimited (c :: cs) := by
  intro d hd
  cases hd
  exact h

namespace Scan

theorem run_cons {found : List Token} {s : Scan} {c : Char} {s' : Scan} {found' : List Token}
    (h : s.step found c = some (s', found')) (cs : List Char) :
    run found s (c :: cs) = run found' s' cs := by
  rw [run, h]

/-! ## Blanks, words and numbers -/

theorem run_blank {blanks : List Char} (blank : Blank blanks) (found : List Token)
    (cs : List Char) : run found .blank (blanks ++ cs) = run found .blank cs := by
  induction blanks with
  | nil => rfl
  | cons c rest ih =>
    obtain ⟨first, others⟩ := List.forall_mem_cons.mp blank
    have between : isBlank c := by simpa [isBlank, or_assoc] using first
    have head : step found .blank c = some (.blank, found) := by
      rw [step, start, if_pos between]
    rw [List.cons_append, run_cons head, ih others]

theorem delimited_blank {blanks cs : List Char} (blank : Blank blanks) (delimited : Delimited cs) :
    Delimited (blanks ++ cs) := by
  cases blanks with
  | nil => exact delimited
  | cons c rest =>
    have first := blank c List.mem_cons_self
    simp only [List.mem_cons, List.not_mem_nil, or_false] at first
    rcases first with rfl | rfl | rfl | rfl <;> exact delimited_cons (by decide) _

/-- A word ends where no letter follows. -/
theorem run_word_end {found : List Token} (seen : List Char) {cs : List Char} {t : Token}
    (known : word? seen.reverse = some t) (delimited : Delimited cs) :
    run found (.word seen) cs = run (t :: found) .blank cs := by
  cases cs with
  | nil => simp only [run, finish, known, Option.map_some]
  | cons c rest =>
    have notLower : c.isLower = false := (delimited c rfl).1
    simp only [run, step, notLower, Bool.false_eq_true, if_false, known, Option.bind_some]

theorem run_number_part {found : List Token} (cs : List Char) {part : List Char}
    (inside : ∀ c ∈ part, isNumberPart c) (seen : List Char) :
    run found (.number seen) (part ++ cs) = run found (.number (part.reverse ++ seen)) cs := by
  induction part generalizing seen with
  | nil => rfl
  | cons c rest ih =>
    have head : step found (.number seen) c = some (.number (c :: seen), found) := by
      rw [step, if_pos (inside c List.mem_cons_self)]
    rw [List.cons_append, run_cons head,
      ih (fun d hd => inside d (List.mem_cons_of_mem c hd)), List.reverse_cons,
      List.append_assoc, List.singleton_append]

theorem run_number_end {found : List Token} {seen cs : List Char} {n : Numeral}
    (known : Numeral.ofChars? seen.reverse = some n) (delimited : Delimited cs) :
    run found (.number seen) cs = run (.number n :: found) .blank cs := by
  cases cs with
  | nil => simp only [run, finish, known, Option.map_some]
  | cons c rest =>
    have outside : isNumberPart c = false := (delimited c rfl).2
    simp only [run, step, outside, Bool.false_eq_true, if_false, known, Option.bind_some]

theorem start_digit {c : Char} (digit : c.isDigit) (found : List Token) :
    start found c = some (.number [c], found) := by
  have range := Char.isDigit_iff_toNat.mp digit
  have notBlank : isBlank c = false := by
    simp only [isBlank, Bool.or_eq_false_iff, decide_eq_false_iff_not]
    refine ⟨⟨⟨?_, ?_⟩, ?_⟩, ?_⟩ <;> rintro rfl <;> exact absurd digit (by decide)
  have notQuote : c ≠ '"' := by
    rintro rfl
    exact absurd digit (by decide)
  have notLower : c.isLower = false := by
    have bound : '9'.toNat < 'a'.toNat := by decide
    have low : ¬ 'a'.val.toNat ≤ c.val.toNat := Nat.not_le.mpr (Nat.lt_of_le_of_lt range.2 bound)
    have split : c.isLower = (decide ('a'.val ≤ c.val) && decide (c.val ≤ 'z'.val)) := rfl
    rw [split, decide_eq_false (mt UInt32.le_iff_toNat_le.mp low), Bool.false_and]
  have first : isNumberStart c = true := by simp [isNumberStart, digit]
  simp only [start, notBlank, notQuote, notLower, first, Bool.false_eq_true, if_false, if_true]

/-- An integer is found, if what follows does not go on with it. -/
theorem run_number (n : Number) (found : List Token) {cs : List Char} (delimited : Delimited cs) :
    run found .blank (n.chars ++ cs) = run (.number (.ofInt n.value) :: found) .blank cs := by
  -- The first character opens the number, and all characters go on with it.
  have opens : ∃ c part, n.chars = c :: part ∧ start found c = some (.number [c], found) ∧
      ∀ d ∈ part, isNumberPart d := by
    have digits := isDigit_toDigits n.value.natAbs
    have parts : ∀ d ∈ Nat.toDigits 10 n.value.natAbs, isNumberPart d := by
      intro d hd
      simp [isNumberPart, digits d hd]
    rw [Number.chars]
    split
    · exact ⟨'-', _, rfl, rfl, parts⟩
    · obtain ⟨c, part, hcons⟩ :=
        List.exists_cons_of_ne_nil (Nat.toDigits_ne_nil (n := n.value.natAbs) (b := 10))
      rw [hcons] at digits parts
      exact ⟨c, part, hcons, start_digit (digits c List.mem_cons_self) found,
        fun d hd => parts d (List.mem_cons_of_mem c hd)⟩
  obtain ⟨c, part, hchars, hstart, hpart⟩ := opens
  have whole : (part.reverse ++ [c]).reverse = n.chars := by simp [hchars]
  have known : Numeral.ofChars? (part.reverse ++ [c]).reverse = some (.ofInt n.value) := by
    rw [whole, Numeral.ofChars?_chars]
  rw [hchars, List.cons_append, run_cons (s := .blank) hstart, run_number_part cs hpart [c],
    run_number_end known delimited]

/-! ## Strings -/

theorem hexDigit?_of_hexDigit {n : Nat} {c : Char} (h : HexDigit n c) : hexDigit? c = some n := by
  have digits : ∀ i < 16, hexDigit? i.digitChar = some i ∧
      hexDigit? i.digitChar.toUpper = some i := by decide
  obtain ⟨small, rfl | rfl⟩ := h
  · exact (digits n small).1
  · exact (digits n small).2

theorem step_hexDigit {n : Nat} {c : Char} (digit : HexDigit n c) (found : List Token)
    (seen : Text) (value : Nat) {missing : Nat} (more : 1 < missing) :
    step found (.unit seen value missing) c =
      some (.unit seen (16 * value + n) (missing - 1), found) := by
  rw [step, hexDigit?_of_hexDigit digit, Option.map_some, if_neg (Nat.not_le.mpr more)]

theorem step_last_hexDigit {n : Nat} {c : Char} (digit : HexDigit n c) (found : List Token)
    (seen : Text) (value : Nat) :
    step found (.unit seen value 1) c = some (.text (.unit (16 * value + n) :: seen), found) := by
  rw [step, hexDigit?_of_hexDigit digit, Option.map_some, if_pos (Nat.le_refl 1)]

end Scan

/-- Inside a string the characters are found as these pieces. -/
def ReadInside (cs : List Char) (pieces : Text) : Prop :=
  ∀ (found : List Token) (seen : Text) (rest : List Char),
    Scan.run found (.text seen) (cs ++ rest) = Scan.run found (.text (pieces.reverse ++ seen)) rest

namespace ReadInside

theorem nil : ReadInside [] [] :=
  fun _ _ _ => rfl

theorem append {cs ds : List Char} {pieces others : Text} (first : ReadInside cs pieces)
    (second : ReadInside ds others) : ReadInside (cs ++ ds) (pieces ++ others) := by
  intro found seen rest
  rw [List.append_assoc, first, second, List.reverse_append, List.append_assoc]

theorem unit {n : Nat} {cs : List Char} (h : SpellsUnit n cs) :
    ReadInside ('\\' :: 'u' :: cs) [.unit n] := by
  intro found seen rest
  obtain @⟨i, j, k, l, c, d, e, f, first, second, third, fourth⟩ := h
  have opens : Scan.run found (.text seen) ('\\' :: 'u' :: [c, d, e, f] ++ rest) =
      Scan.run found (.unit seen 0 4) (c :: d :: e :: f :: rest) := rfl
  rw [opens, Scan.run_cons (Scan.step_hexDigit first _ _ _ (by decide)),
    Scan.run_cons (Scan.step_hexDigit second _ _ _ (by decide)),
    Scan.run_cons (Scan.step_hexDigit third _ _ _ (by decide)),
    Scan.run_cons (Scan.step_last_hexDigit fourth _ _ _), Nat.mul_zero, Nat.zero_add]
  rfl

end ReadInside

namespace Text

/-- The numbers of characters leave out the halves of pairs. -/
theorem notHalf_toNat (c : Char) : isHighUnit c.toNat = false ∧ isLowUnit c.toNat = false := by
  have valid : c.toNat < 0xD800 ∨ 0xDFFF < c.toNat ∧ c.toNat < 0x110000 := c.valid
  simp only [isHighUnit, isLowUnit, Bool.and_eq_false_iff, decide_eq_false_iff_not]
  omega

theorem chars?_unit_toNat (c : Char) (rest : Text) :
    chars? (.unit c.toNat :: rest) = (chars? rest).map (c :: ·) := by
  obtain ⟨notHigh, notLow⟩ := notHalf_toNat c
  rw [chars?.eq_def]
  simp only [notHigh, notLow, Bool.false_eq_true, if_false, Char.ofNat_toNat]

theorem chars?_pair {c : Char} {high low : Nat} (highSmall : high < 0x400) (lowSmall : low < 0x400)
    (value : c.toNat = 0x10000 + high * 0x400 + low) (rest : Text) :
    chars? (.unit (0xD800 + high) :: .unit (0xDC00 + low) :: rest) =
      (chars? rest).map (c :: ·) := by
  have first : isHighUnit (0xD800 + high) = true := by
    simp only [isHighUnit, Bool.and_eq_true, decide_eq_true_eq]
    omega
  have second : isLowUnit (0xDC00 + low) = true := by
    simp only [isLowUnit, Bool.and_eq_true, decide_eq_true_eq]
    omega
  have same : 0x10000 + (0xD800 + high - 0xD800) * 0x400 + (0xDC00 + low - 0xDC00) = c.toNat := by
    omega
  rw [chars?.eq_def]
  simp only [first, second, if_true, same, Char.ofNat_toNat]

end Text

theorem exists_pieces_char {c : Char} {cs : List Char} (h : SpellsChar c cs) :
    ∃ pieces, ReadInside cs pieces ∧
      ∀ rest, Text.chars? (pieces ++ rest) = (Text.chars? rest).map (c :: ·) := by
  cases h with
  | plain printable notQuote notBackslash =>
    refine ⟨[.char c], fun found seen rest => Scan.run_cons ?_ rest, fun _ => rfl⟩
    rw [Scan.step, if_neg notQuote, if_neg notBackslash, if_neg (Nat.not_lt.mpr printable)]
    rfl
  | @short mark known =>
    refine ⟨[.char c], fun found seen rest => ?_, fun _ => rfl⟩
    have marks : ∀ e ∈ escapes, e.1 ≠ 'u' ∧ Scan.escaped? e.1 = some e.2 := by decide
    obtain ⟨notUnit, escaped⟩ := marks (mark, c) known
    have opens : Scan.run found (.text seen) (['\\', mark] ++ rest) =
        Scan.run found (.escape seen) (mark :: rest) := rfl
    have head : Scan.step found (.escape seen) mark = some (.text (.char c :: seen), found) := by
      rw [Scan.step, if_neg notUnit, escaped, Option.map_some]
    rw [opens, Scan.run_cons head]
    rfl
  | unit digits => exact ⟨[.unit c.toNat], .unit digits, Text.chars?_unit_toNat c⟩
  | pair high low value first second =>
    exact ⟨_, (ReadInside.unit first).append (.unit second), Text.chars?_pair high low value⟩

theorem exists_pieces {chars cs : List Char} (h : SpellsChars chars cs) :
    ∃ pieces, ReadInside cs pieces ∧ Text.chars? pieces = some chars := by
  induction h with
  | nil => exact ⟨[], .nil, rfl⟩
  | cons first _ ih =>
    obtain ⟨pieces, read, value⟩ := exists_pieces_char first
    obtain ⟨others, readOthers, valueOthers⟩ := ih
    refine ⟨pieces ++ others, read.append readOthers, ?_⟩
    rw [value, valueOthers, Option.map_some]

/-! ## Tokens -/

/-- From the characters these tokens are found. -/
def ReadAs (cs : List Char) (tokens : List Token) : Prop :=
  ∀ (found : List Token) {rest : List Char}, Delimited rest →
    Scan.run found .blank (cs ++ rest) = Scan.run (tokens.reverse ++ found) .blank rest

namespace ReadAs

theorem append {cs ds : List Char} {tokens others : List Token} (first : ReadAs cs tokens)
    (second : ReadAs ds others) (between : ∀ rest, Delimited rest → Delimited (ds ++ rest)) :
    ReadAs (cs ++ ds) (tokens ++ others) := by
  intro found rest delimited
  rw [List.append_assoc, first found (between rest delimited), second _ delimited,
    List.reverse_append, List.append_assoc]

theorem blank {blanks : List Char} (h : Blank blanks) : ReadAs blanks [] :=
  fun found _ _ => Scan.run_blank h found _

theorem padded {before cs behind : List Char} {tokens : List Token} (hbefore : Blank before)
    (inside : ReadAs cs tokens) (hbehind : Blank behind) :
    ReadAs (before ++ cs ++ behind) tokens := by
  intro found rest delimited
  rw [List.append_assoc, List.append_assoc, Scan.run_blank hbefore,
    inside found (Scan.delimited_blank hbehind delimited), Scan.run_blank hbehind]

/-- A bracket, a comma or a colon. -/
theorem cons {c : Char} {t : Token}
    (starts : ∀ found, Scan.start found c = some (.blank, t :: found))
    {cs : List Char} {tokens : List Token} (behind : ReadAs cs tokens) :
    ReadAs (c :: cs) (t :: tokens) := by
  intro found rest delimited
  rw [List.cons_append, Scan.run_cons (s := .blank) (starts found), behind _ delimited,
    List.reverse_cons, List.append_assoc, List.singleton_append]

theorem text {s : String} {cs : List Char} (h : SpellsChars s.toList cs) :
    ∃ t : Text, t.string? = some s ∧ ReadAs ('"' :: cs ++ ['"']) [.text t] := by
  obtain ⟨pieces, read, value⟩ := exists_pieces h
  refine ⟨pieces, ?_, fun found rest _ => ?_⟩
  · rw [Text.string?, value, Option.map_some, String.ofList_toList]
  · have opens : Scan.run found .blank ('"' :: cs ++ ['"'] ++ rest) =
        Scan.run found (.text []) (cs ++ '"' :: rest) := by
      rw [List.append_assoc, List.cons_append]
      rfl
    rw [opens, read, List.append_nil, Scan.run_cons rfl, List.reverse_reverse]
    rfl

end ReadAs

theorem ofChars?_of_readAs {cs : List Char} {tokens : List Token} (read : ReadAs cs tokens) :
    Token.ofChars? cs = some tokens := by
  have found := read [] delimited_nil
  rw [List.append_nil, List.append_nil] at found
  rw [Token.ofChars?, found, Scan.run, Scan.finish, List.reverse_reverse]

end PortWire.Json
