import SpotExchange.Json.Reader

/-!
Scalars of TOML, version 0.5: strings, whole numbers, floating-point numbers,
truth values and dates. Floating-point numbers and dates are only checked.
-/

namespace SpotExchange.Toml

def isWordChar (c : Char) : Bool :=
  let n := c.toNat
  (48 ≤ n && n ≤ 57) || (65 ≤ n && n ≤ 90) || (97 ≤ n && n ≤ 122) || c = '-' || c = '_'

def isCommentChar (c : Char) : Bool := c = '\t' || 32 ≤ c.toNat

def isStringChar (c : Char) : Bool := c = '\t' || (32 ≤ c.toNat && c.toNat ≠ 127)

def takeWord? (text : List Char) : Option (List Char × List Char) :=
  match text.takeWhile isWordChar with
  | [] => none
  | word => some (word, text.dropWhile isWordChar)

def foldLineEnds : List Char → List Char
  | '\r' :: '\n' :: rest => '\n' :: foldLineEnds rest
  | c :: rest => c :: foldLineEnds rest
  | [] => []

def charOfHexadecimal? (digits : List Char) : Option Char := do
  let value ← Json.hexadecimal? digits
  if value.isValidChar then return Char.ofNat value else none

def escaped? : Char → Option Char
  | '"' => some '"'
  | '\\' => some '\\'
  | 'b' => some '\x08'
  | 'f' => some '\x0c'
  | 'n' => some '\n'
  | 'r' => some '\r'
  | 't' => some '\t'
  | _ => none

def endsBlank : List Char → Bool
  | '\n' :: _ => true
  | c :: rest => (c = ' ' || c = '\t') && endsBlank rest
  | [] => true

structure Quoting where
  quote : Char
  escapes : Bool
  multiline : Bool

/-- Reads a string up to its closing quotes. On many lines up to two quotes more
than the closing three belong to the string. After a backslash at the end of a
line, `skipping` passes over blanks and line ends. -/
def readQuoted (style : Quoting) (skipping : Bool) : List Char → Option (List Char × List Char)
  | [] => none
  | c :: rest =>
    if skipping && (c = ' ' || c = '\t' || c = '\n') then readQuoted style true rest
    else if c = style.quote then
      if !style.multiline then some ([], rest)
      else
        match rest with
        | q :: r :: s :: t :: others =>
          if q ≠ c then (readQuoted style false rest).map fun (cs, left) => (c :: cs, left)
          else if r ≠ c then (readQuoted style false rest).map fun (cs, left) => (c :: cs, left)
          else if s ≠ c then some ([], s :: t :: others)
          else if t ≠ c then some ([c], t :: others)
          else some ([c, c], others)
        | [q, r, s] =>
          if q ≠ c ∨ r ≠ c then none else if s = c then some ([c], []) else some ([], [s])
        | [q, r] => if q = c ∧ r = c then some ([], []) else none
        | _ => none
    else if style.escapes && c = '\\' then
      match rest with
      | 'u' :: a :: b :: d :: e :: others => do
        let value ← charOfHexadecimal? [a, b, d, e]
        let (cs, left) ← readQuoted style false others
        return (value :: cs, left)
      | 'U' :: a :: b :: d :: e :: f :: g :: h :: i :: others => do
        let value ← charOfHexadecimal? [a, b, d, e, f, g, h, i]
        let (cs, left) ← readQuoted style false others
        return (value :: cs, left)
      | e :: others =>
        if style.multiline && (e = ' ' || e = '\t' || e = '\n') then
          if e = '\n' || endsBlank others then readQuoted style true others else none
        else do
          let value ← escaped? e
          let (cs, left) ← readQuoted style false others
          return (value :: cs, left)
      | [] => none
    else if c = '\n' then
      if style.multiline then
        (readQuoted style false rest).map fun (cs, left) => (c :: cs, left)
      else none
    else if isStringChar c then
      (readQuoted style false rest).map fun (cs, left) => (c :: cs, left)
    else none

/-- Reads a string from its opening quotes on; a line end right behind three of
them is not part of it. Tells whether it may span lines. -/
def readString? : List Char → Option (Bool × String × List Char)
  | quote :: rest =>
    if quote = '"' ∨ quote = '\'' then
      let style : Quoting := ⟨quote, quote = '"', false⟩
      match rest with
      | a :: b :: others =>
        if a = quote ∧ b = quote then do
          let body := match others with
            | '\n' :: body => body
            | body => body
          let (cs, left) ← readQuoted { style with multiline := true } false body
          return (true, String.ofList cs, left)
        else do
          let (cs, left) ← readQuoted style false rest
          return (false, String.ofList cs, left)
      | _ => do
        let (cs, left) ← readQuoted style false rest
        return (false, String.ofList cs, left)
    else none
  | [] => none

structure DigitRule where
  base : Nat
  sign : Bool
  leadingZeros : Bool

def DigitRule.digit? (rule : DigitRule) (c : Char) : Option Nat := do
  let value ← Json.hexValue? c
  if value < rule.base then return value else none

/-- The digits at the start of a text and the rest; `zero` tells that the only
digit so far is a zero, `gap` that an underscore was the last character. -/
def DigitRule.scan (rule : DigitRule) (first zero gap : Bool) :
    List Char → Option (List Nat × List Char)
  | [] => if first || gap then none else some ([], [])
  | c :: rest =>
    match rule.digit? c with
    | some value =>
      if !first && zero && !rule.leadingZeros then none
      else do
        let (values, left) ← rule.scan false (zero || (first && value = 0)) false rest
        return (value :: values, left)
    | none =>
      if c = '_' then
        if first then none
        else if gap then none
        else rule.scan false zero true rest
      else if first || gap then none
      else some ([], c :: rest)

def DigitRule.read? (rule : DigitRule) (text : List Char) :
    Option (Bool × List Nat × List Char) := do
  let (negative, unsigned) := match text with
    | '-' :: rest => if rule.sign then (true, rest) else (false, text)
    | '+' :: rest => if rule.sign then (false, rest) else (false, text)
    | _ => (false, text)
  let (values, left) ← rule.scan true false false unsigned
  return (negative, values, left)

def DigitRule.whole? (rule : DigitRule) (word : List Char) : Option Int := do
  let (negative, values, left) ← rule.read? word
  let size := values.foldl (fun sum value => sum * rule.base + value) 0
  if left = [] then return if negative then -(size : Int) else size else none

def integer? (rule : DigitRule) (word : List Char) : Option Int := do
  let value ← rule.whole? word
  if -9223372036854775808 ≤ value ∧ value ≤ 9223372036854775807 then return value else none

def isFinite (digits : List Nat) (exponent : Int) : Bool :=
  let significant := digits.dropWhile fun digit => digit = 0
  let magnitude := significant.length + exponent
  significant = [] || magnitude < 309 ||
    (magnitude = 309 && (Binary64.nearest? (ofDigits significant * tenTo exponent.toNat)
      (tenTo (-exponent).toNat)).isSome)

def fraction? (fraction : Option (List Char)) (left : List Char) :
    Option (List Nat × List Char) :=
  match fraction with
  | none => some ([], left)
  | some word =>
    if left = [] then (DigitRule.read? ⟨10, false, true⟩ word).map fun taken => taken.2 else none

/-- The exponent in what follows the digits of a number, however large; the text
behind it can hold a part of it after a plus sign. -/
def exponent? (left rest : List Char) : Option (Int × List Char) :=
  match left with
  | [] => some (0, rest)
  | mark :: suffix =>
    if mark ≠ 'e' ∧ mark ≠ 'E' then none
    else if suffix = [] then do
      let (word, rest) ← takeWord? (if rest.head? = some '+' then rest.drop 1 else rest)
      return (← DigitRule.whole? ⟨10, false, true⟩ word, rest)
    else do
      return (← DigitRule.whole? ⟨10, true, true⟩ suffix, rest)

def float? (whole : List Char) (fraction : Option (List Char)) (rest : List Char) :
    Option (List Char) := do
  let (_, wholeDigits, left) ← DigitRule.read? ⟨10, true, false⟩ whole
  let (fractionDigits, left) ← fraction? fraction left
  let (exponent, rest) ← exponent? left rest
  if isFinite (wholeDigits ++ fractionDigits) (exponent - fractionDigits.length) then return rest
  else none

def hasNegativeExponent : List Char → Bool
  | 'e' :: '-' :: _ => true
  | 'E' :: '-' :: _ => true
  | _ :: rest => hasNegativeExponent rest
  | [] => false

def takeMarked? (mark : Char) : List Char → Option (List Char)
  | c :: rest => if c = mark then (takeWord? rest).map fun taken => taken.2 else none
  | [] => none

def skipMarked? (mark : Char) (text : List Char) : Option (List Char) :=
  if text.head? = some mark then takeMarked? mark text else some text

def skipClock? (text : List Char) : Option (List Char) := do
  let (_, rest) ← takeWord? text
  let rest ← takeMarked? ':' rest
  let rest ← skipMarked? '.' rest
  let rest ← skipMarked? '+' rest
  skipMarked? ':' rest

def skipDate? (text : List Char) : Option (List Char) :=
  let rest := match text with
    | ' ' :: c :: others => if isWordChar c then (c :: others).dropWhile isWordChar else text
    | _ => text
  match rest with
  | ':' :: clock => skipClock? clock
  | _ => some rest

end SpotExchange.Toml
