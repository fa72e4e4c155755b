import SpotExchange.Json.Reader
import SpotExchange.Json.Writer
import SpotExchange.Proofs.DigitRuns

/-!
What is written in JSON is read back. A text is read from its front, so each lemma tells
what is left behind the part that was written: a string ends at its quote, a whole number
where its digits end, and a list at its bracket.
-/

namespace SpotExchange

/-- Whole numbers that are kept exactly; those below zero have a sign. -/
def Number.Whole : Number → Prop
  | .natural value => value ≤ 18446744073709551615
  | .negative size => 0 < size ∧ size ≤ 9223372036854775808
  | .double .. => False

namespace Json

section strings

theorem hexValue?_hexChar {digit : Nat} (small : digit < 16) :
    hexValue? (hexChar digit) = some digit := by
  have : ∀ digit < 16, hexValue? (hexChar digit) = some digit := by decide
  exact this digit small

theorem hexadecimal?_control {n : Nat} (control : n < 32) :
    hexadecimal? ['0', '0', hexChar (n / 16), hexChar (n % 16)] = some n := by
  have zero : hexValue? '0' = some 0 := rfl
  have high : n / 16 < 16 := by omega
  have low : n % 16 < 16 := by omega
  have whole : n / 16 * 16 + n % 16 = n := by omega
  simp [hexadecimal?, zero, hexValue?_hexChar high, hexValue?_hexChar low, whole]

/-- Each character is read as one piece, which puts it before the characters of the others. -/
theorem readPieces_writeChar (c : Char) {text rest : List Char} {pieces : List Piece}
    (read : readPieces text = some (pieces, rest)) :
    ∃ piece, readPieces (writeChar c ++ text) = some (piece :: pieces, rest) ∧
      joinPieces (piece :: pieces) = (joinPieces pieces).map (c :: ·) := by
  fun_cases writeChar c
  case case8 control =>
    refine ⟨.unit c.toNat, ?_, ?_⟩
    · simp [readPieces, hexadecimal?_control control, read]
    · have single : c.toNat < 55296 := by omega
      rw [joinPieces.eq_def]
      simp [single]
  case case9 quote slash _ _ _ _ _ printed =>
    refine ⟨.char c, ?_, rfl⟩
    have plain : readPieces (c :: text) = _ :=
      readPieces.eq_4 c text quote (fun _ _ _ _ _ escape => (slash escape).elim)
        (fun _ _ escape => (slash escape).elim)
    rw [List.singleton_append, plain, if_neg printed, read]
    rfl
  all_goals exact ⟨.char _, by simp [readPieces, escaped?, read], rfl⟩

theorem readPieces_writeChars (cs rest : List Char) :
    ∃ pieces, readPieces (cs.flatMap writeChar ++ '"' :: rest) = some (pieces, rest) ∧
      joinPieces pieces = some cs := by
  induction cs with
  | nil => exact ⟨[], by simp [readPieces], rfl⟩
  | cons c cs ih =>
    obtain ⟨pieces, read, joined⟩ := ih
    obtain ⟨piece, readFirst, joinFirst⟩ := readPieces_writeChar c read
    refine ⟨piece :: pieces, ?_, by rw [joinFirst, joined, Option.map_some]⟩
    rw [List.flatMap_cons, List.append_assoc, readFirst]

theorem readString_write (value : String) (rest : List Char) :
    readString (value.toList.flatMap writeChar ++ '"' :: rest) = some (some value, rest) := by
  obtain ⟨pieces, read, joined⟩ := readPieces_writeChars value.toList rest
  simp [readString, read, joined]

theorem writeString_append (value : String) (rest : List Char) :
    writeString value ++ rest = '"' :: (value.toList.flatMap writeChar ++ '"' :: rest) := by
  simp [writeString]

end strings

section numbers

/-- What can stand behind a value that was written. -/
def Closes (rest : List Char) : Prop := ∀ c ∈ rest.head?, c = ',' ∨ c = ']' ∨ c = '}'

theorem appendWithin64_of_le {value : Nat} {ds : List Nat}
    (within : appendDigits value ds ≤ 18446744073709551615) :
    appendWithin64 value ds = (appendDigits value ds, ds.length) := by
  induction ds generalizing value with
  | nil => rfl
  | cons d ds ih =>
    have first : value * 10 + d ≤ 18446744073709551615 :=
      Nat.le_trans (le_appendDigits _ ds) within
    simp [appendWithin64, first, ih within, appendDigits_cons]

theorem appendWithin64_digits {n : Nat} (within : n ≤ 18446744073709551615) :
    appendWithin64 0 (digits n) = (n, (digits n).length) := by
  have value : appendDigits 0 (digits n) = n := ofDigits_digits n
  rw [appendWithin64_of_le (by rwa [value]), value]

variable {n : Nat} {rest : List Char}

theorem takeDigits_numeral (ends : EndsDigits rest) :
    takeDigits (numeral n ++ rest) = digits n := by
  rw [takeDigits, numeral, takeWhile_digits (digits_areDigits n) ends,
    filterMap_digits (digits_areDigits n)]

theorem dropDigits_numeral (ends : EndsDigits rest) : dropDigits (numeral n ++ rest) = rest :=
  dropWhile_digits (digits_areDigits n) ends

theorem Closes.endsDigits (closes : Closes rest) : EndsDigits rest := by
  intro c first
  rcases closes c first with rfl | rfl | rfl <;> rfl

theorem Closes.noFraction (closes : Closes rest) : readFraction rest = some (none, rest) := by
  cases rest with
  | nil => rfl
  | cons c rest => rcases closes c rfl with rfl | rfl | rfl <;> rfl

theorem Closes.noExponent (closes : Closes rest) : readExponent rest = some (none, rest) := by
  cases rest with
  | nil => rfl
  | cons c rest => rcases closes c rfl with rfl | rfl | rfl <;> rfl

theorem digits_accepted (n : Nat) :
    ¬(digits n = [] ∨ ((digits n).head? = some 0 ∧ (digits n).length ≠ 1)) := by
  rintro (none | ⟨zero, more⟩)
  · exact digits_ne_nil n none
  · obtain rfl := (head_digits n).1 zero
    exact more (by simp [digits])

theorem readNumeral_negative (n : Nat) (closes : Closes rest) :
    readNumeral ('-' :: numeral n ++ rest) = some (⟨true, digits n, none, none⟩, rest) := by
  have ends := closes.endsDigits
  simp only [readNumeral, List.cons_append, takeDigits_numeral ends, dropDigits_numeral ends,
    if_neg (digits_accepted n), closes.noFraction, closes.noExponent, Option.bind_eq_bind,
    Option.bind_some]
  rfl

theorem readNumeral_unsigned (n : Nat) (closes : Closes rest) :
    readNumeral (numeral n ++ rest) = some (⟨false, digits n, none, none⟩, rest) := by
  have begins := (numeral_begins n).append rest
  have ends := closes.endsDigits
  unfold readNumeral
  split
  rename_i negative unsigned sign
  split at sign
  · exact (begins.ne_cons rfl _ ‹_›).elim
  · obtain ⟨rfl, rfl⟩ := Prod.mk.inj sign
    simp only [takeDigits_numeral ends, dropDigits_numeral ends, if_neg (digits_accepted n),
      closes.noFraction, closes.noExponent, Option.bind_eq_bind, Option.bind_some]
    rfl

theorem value?_natural {value : Nat} (whole : (Number.natural value).Whole) :
    (⟨false, digits value, none, none⟩ : Numeral).value? = some (.natural value) := by
  have kept := appendWithin64_digits whole
  simp [Numeral.value?, kept]

theorem value?_negative {size : Nat} (whole : (Number.negative size).Whole) :
    (⟨true, digits size, none, none⟩ : Numeral).value? = some (.negative size) := by
  obtain ⟨positive, within⟩ := whole
  have natural : size ≤ 18446744073709551615 := by omega
  have kept := appendWithin64_digits natural
  simp [Numeral.value?, kept, positive, within]

end numbers

section values

def OpensScalar (text : List Char) : Prop :=
  ∃ c rest, text = c :: rest ∧ isBlank c = false ∧ c ≠ '"' ∧ c ≠ '[' ∧ c ≠ '{'

theorem readValue_scalar {text : List Char} (opens : OpensScalar text) (fuel : Nat) :
    readValue (fuel + 1) text = readScalar text := by
  obtain ⟨c, rest, rfl, notBlank, notQuote, notBracket, notBrace⟩ := opens
  have kept : skipBlanks (c :: rest) = c :: rest := by simp [skipBlanks, notBlank]
  rw [readValue, kept]
  split <;> simp_all

theorem isBlank_digitChar {d : Nat} (small : d < 10) : isBlank (digitChar d) = false := by
  have : ∀ d < 10, isBlank (digitChar d) = false := by decide
  exact this d small

theorem opensScalar_numeral (n : Nat) (rest : List Char) : OpensScalar (numeral n ++ rest) := by
  obtain ⟨d, small, tail, head⟩ := (numeral_begins n).append rest
  refine ⟨digitChar d, tail, head, isBlank_digitChar small, ?_⟩
  exact ⟨digitChar_ne small rfl, digitChar_ne small rfl, digitChar_ne small rfl⟩

theorem readScalar_natural {value : Nat} (whole : (Number.natural value).Whole)
    {rest : List Char} (closes : Closes rest) :
    readScalar (numeral value ++ rest) = some (.number (.natural value), rest) := by
  have begins := (numeral_begins value).append rest
  have scalar : readScalar (numeral value ++ rest) = _ :=
    readScalar.eq_4 _ (fun _ => begins.ne_cons rfl _) (fun _ => begins.ne_cons rfl _)
      (fun _ => begins.ne_cons rfl _)
  rw [scalar, readNumeral_unsigned value closes]
  simp [value?_natural whole]

theorem readScalar_negative {size : Nat} (whole : (Number.negative size).Whole)
    {rest : List Char} (closes : Closes rest) :
    readScalar ('-' :: numeral size ++ rest) = some (.number (.negative size), rest) := by
  have scalar : readScalar ('-' :: numeral size ++ rest) = _ :=
    readScalar.eq_4 _ (by simp) (by simp) (by simp)
  rw [scalar, readNumeral_negative size closes]
  simp [value?_negative whole]

theorem readValue_number {number : Number} (whole : number.Whole) {rest : List Char}
    (closes : Closes rest) (fuel : Nat) :
    readValue (fuel + 1) (writeNumber number ++ rest) = some (.number number, rest) := by
  cases number with
  | natural value =>
    rw [writeNumber, readValue_scalar (opensScalar_numeral value rest),
      readScalar_natural whole closes]
  | negative size =>
    have opens : OpensScalar ('-' :: numeral size ++ rest) :=
      ⟨'-', _, rfl, by decide, by decide, by decide, by decide⟩
    rw [writeNumber, readValue_scalar opens, readScalar_negative whole closes]
  | double => exact whole.elim

theorem readValue_string (value : String) (rest : List Char) (fuel : Nat) :
    readValue (fuel + 1) (writeString value ++ rest) = some (.string value, rest) := by
  rw [writeString_append, readValue]
  simp [skipBlanks, isBlank, readString_write]

mutual

/-- Values whose text says all that they hold: everything in them has a value, and the
numbers are whole. -/
def Exact : Json → Prop
  | .number value => value.Whole
  | .array items => ExactItems items
  | .object members => ExactMembers members
  | .unreadable => False
  | _ => True

def ExactItems : List Json → Prop
  | [] => True
  | item :: rest => item.Exact ∧ ExactItems rest

def ExactMembers : List (String × Json) → Prop
  | [] => True
  | (_, value) :: rest => value.Exact ∧ ExactMembers rest

end

theorem write_head {value : Json} (exact : value.Exact) :
    ∃ c rest, value.write = c :: rest ∧ isBlank c = false ∧ c ≠ ']' := by
  cases value with
  | null => exact ⟨_, _, rfl, rfl, by decide⟩
  | bool value => cases value <;> exact ⟨_, _, rfl, rfl, by decide⟩
  | number number =>
    cases number with
    | natural value =>
      obtain ⟨d, small, tail, head⟩ := numeral_begins value
      exact ⟨_, tail, by rw [write, writeNumber, head], isBlank_digitChar small,
        digitChar_ne small rfl⟩
    | negative size => exact ⟨'-', numeral size, rfl, rfl, by decide⟩
    | double => exact exact.elim
  | string value => exact ⟨_, _, rfl, rfl, by decide⟩
  | array items => exact ⟨_, _, rfl, rfl, by decide⟩
  | object members => exact ⟨_, _, rfl, rfl, by decide⟩
  | unreadable => exact exact.elim

theorem writeItems_cons (item : Json) (items : List Json) (rest : List Char) :
    writeItems (item :: items) ++ rest =
      item.write ++ (match items with
        | [] => rest
        | _ => ',' :: (writeItems items ++ rest)) := by
  cases items <;> simp [writeItems]

theorem writeMembers_cons (name : String) (value : Json) (members : List (String × Json))
    (rest : List Char) :
    writeMembers ((name, value) :: members) ++ rest =
      writeString name ++ ':' :: (value.write ++ (match members with
        | [] => rest
        | _ => ',' :: (writeMembers members ++ rest))) := by
  cases members <;> simp [writeMembers]

theorem readValue_bracket {text rest : List Char} {items : List Json} {fuel : Nat}
    (filled : ∃ c tail, text = c :: tail ∧ isBlank c = false ∧ c ≠ ']')
    (read : readItems fuel text = some (items, rest)) :
    readValue (fuel + 1) ('[' :: text) = some (.array items, rest) := by
  obtain ⟨c, tail, rfl, notBlank, notClosed⟩ := filled
  have opened : skipBlanks ('[' :: c :: tail) = '[' :: c :: tail := by simp [skipBlanks, isBlank]
  have kept : skipBlanks (c :: tail) = c :: tail := by simp [skipBlanks, notBlank]
  simp [readValue, opened, kept, notClosed, read]

theorem readValue_brace {text rest : List Char} {members : List (Option String × Json)}
    {fuel : Nat} (read : readMembers fuel ('"' :: text) = some (members, rest)) :
    readValue (fuel + 1) ('{' :: '"' :: text) = some (ofMembers members, rest) := by
  have opened : skipBlanks ('{' :: '"' :: text) = '{' :: '"' :: text := by
    simp [skipBlanks, isBlank]
  have kept : skipBlanks ('"' :: text) = '"' :: text := by simp [skipBlanks, isBlank]
  simp [readValue, opened, kept, read]

theorem ofMembers_named (members : List (String × Json)) :
    ofMembers (members.map fun entry => (some entry.1, entry.2)) = .object members := by
  have kept : members.mapM (fun entry => some (entry.1, entry.2)) = some members := by
    rw [← Option.pure_def, List.mapM_pure]
    exact congrArg pure (List.map_id members)
  simp [ofMembers, List.mapM_map, Function.comp_def, kept]

theorem fuel_of_list {inside : List Char} {opening closing : Char} {fuel : Nat}
    (enough : 2 * (opening :: inside ++ [closing]).length ≤ fuel + 1) :
    2 * inside.length < fuel := by
  simp only [List.length_append, List.length_cons, List.length_nil] at enough
  omega

theorem closes_cons {c : Char} (mark : c = ',' ∨ c = ']' ∨ c = '}') (rest : List Char) :
    Closes (c :: rest) := by
  rintro _ ⟨⟩
  exact mark

-- The induction is on the fuel. What is left of it is enough for what is left of the text,
-- as an entry of a list takes two steps and has two characters at least, its mark included.
mutual

/-- A value is read back with whatever stands behind it, given fuel for its text. -/
theorem readValue_write {value : Json} (exact : value.Exact) {rest : List Char}
    (closes : Closes rest) {fuel : Nat} (enough : 2 * value.write.length ≤ fuel) :
    readValue fuel (value.write ++ rest) = some (value, rest) := by
  match fuel, value with
  | 0, value =>
    obtain ⟨c, tail, head, -⟩ := write_head exact
    simp [head] at enough
  | fuel + 1, .null => rfl
  | fuel + 1, .bool true => rfl
  | fuel + 1, .bool false => rfl
  | fuel + 1, .number kept => exact readValue_number exact closes fuel
  | fuel + 1, .string text => exact readValue_string text rest fuel
  | fuel + 1, .array [] => rfl
  | fuel + 1, .array (item :: items) =>
    have read := readItems_write exact rest (fuel_of_list enough)
    obtain ⟨c, tail, head, opens⟩ := write_head exact.1
    have filled : ∃ c tail, writeItems (item :: items) ++ ']' :: rest = c :: tail ∧
        isBlank c = false ∧ c ≠ ']' :=
      ⟨c, _, by rw [writeItems_cons, head, List.cons_append], opens⟩
    simpa [write] using readValue_bracket filled read
  | fuel + 1, .object [] => rfl
  | fuel + 1, .object ((name, value) :: members) =>
    have read := readMembers_write exact rest (fuel_of_list enough)
    rw [writeMembers_cons, writeString_append] at read
    rw [write, List.cons_append, List.cons_append, List.append_assoc, List.singleton_append,
      writeMembers_cons, writeString_append, readValue_brace read, ofMembers_named]
termination_by fuel

theorem readItems_write {item : Json} {items : List Json} (exact : ExactItems (item :: items))
    (rest : List Char) {fuel : Nat} (enough : 2 * (writeItems (item :: items)).length < fuel) :
    readItems fuel (writeItems (item :: items) ++ ']' :: rest) = some (item :: items, rest) := by
  match fuel, items with
  | fuel + 1, [] =>
    rw [writeItems_cons, readItems]
    have read := readValue_write exact.1 (closes_cons (.inr (.inl rfl)) rest)
      (Nat.le_of_lt_succ enough)
    simp [read, skipBlanks, isBlank]
  | fuel + 1, next :: items =>
    rw [writeItems_cons, readItems]
    have length : (writeItems (item :: next :: items)).length =
        item.write.length + (writeItems (next :: items)).length + 1 := by
      simp only [writeItems, List.length_append, List.length_cons]
      omega
    have first := readValue_write exact.1
      (closes_cons (.inl rfl) (writeItems (next :: items) ++ ']' :: rest))
      (by omega : 2 * item.write.length ≤ fuel)
    have others := readItems_write exact.2 rest
      (by omega : 2 * (writeItems (next :: items)).length < fuel)
    simp [first, others, skipBlanks, isBlank]
termination_by fuel

theorem readMembers_write {name : String} {value : Json} {members : List (String × Json)}
    (exact : ExactMembers ((name, value) :: members)) (rest : List Char) {fuel : Nat}
    (enough : 2 * (writeMembers ((name, value) :: members)).length < fuel) :
    readMembers fuel (writeMembers ((name, value) :: members) ++ '}' :: rest) =
      some (((name, value) :: members).map fun entry => (some entry.1, entry.2), rest) := by
  match fuel, members with
  | fuel + 1, [] =>
    rw [writeMembers_cons, writeString_append, readMembers]
    have length : value.write.length ≤ (writeMembers [(name, value)]).length := by
      simp only [writeMembers, List.length_append, List.length_cons]
      omega
    have read := readValue_write exact.1 (closes_cons (.inr (.inr rfl)) rest)
      (by omega : 2 * value.write.length ≤ fuel)
    simp [readString_write, read, skipBlanks, isBlank]
  | fuel + 1, (other, next) :: members =>
    rw [writeMembers_cons, writeString_append, readMembers]
    have length : value.write.length + (writeMembers ((other, next) :: members)).length + 1 ≤
        (writeMembers ((name, value) :: (other, next) :: members)).length := by
      simp only [writeMembers, List.length_append, List.length_cons]
      omega
    have first := readValue_write exact.1
      (closes_cons (.inl rfl) (writeMembers ((other, next) :: members) ++ '}' :: rest))
      (by omega : 2 * value.write.length ≤ fuel)
    have others := readMembers_write exact.2 rest
      (by omega : 2 * (writeMembers ((other, next) :: members)).length < fuel)
    simp [readString_write, first, others, skipBlanks, isBlank]
termination_by fuel

end

theorem ofText?_write {value : Json} (exact : value.Exact) : ofText? value.write = some value := by
  have read : readValue (2 * value.write.length + 2) (value.write ++ []) = some (value, []) :=
    readValue_write exact (by simp [Closes]) (by omega)
  rw [List.append_nil] at read
  rw [ofText?, read]
  rfl

end values

end Json

end SpotExchange
