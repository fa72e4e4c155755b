import SpotExchange.Json.Reader

/-!
Socket addresses: an IPv4 address, or an IPv6 address in brackets, then a colon and
a number of 16 bits.
-/

namespace SpotExchange.SocketAddress

def skipNumber? (base largest : Nat) (text : List Char) : Option (List Char) :=
  let isDigit := fun c => (Json.hexValue? c).any fun value => value < base
  let digits := (text.takeWhile isDigit).filterMap Json.hexValue?
  if digits = [] ∨ largest < digits.foldl (fun sum value => sum * base + value) 0 then none
  else some (text.dropWhile isDigit)

def skipChar? (expected : Char) : List Char → Option (List Char)
  | c :: rest => if c = expected then some rest else none
  | [] => none

/-- Passes over a part of an IPv4 address: no zero in front, up to three digits. -/
def skipOctet? (text : List Char) : Option (List Char) :=
  match text with
  | '0' :: rest => if (rest.head?.bind digitValue?).isSome then none else some rest
  | _ => skipNumber? 10 255 text

def skipIpv4? (text : List Char) : Option (List Char) := do
  let rest ← skipOctet? text
  let rest ← skipOctet? (← skipChar? '.' rest)
  let rest ← skipOctet? (← skipChar? '.' rest)
  skipOctet? (← skipChar? '.' rest)

def skipGroup? (text : List Char) : Option (List Char) :=
  let digits := (text.take 4).takeWhile fun c => (Json.hexValue? c).isSome
  if digits.isEmpty || (text[4]?.bind Json.hexValue?).isSome then none
  else some (text.drop digits.length)

/-- Passes over groups that colons separate, up to `limit` of them, the last two
perhaps as an IPv4 address. Gives their count and whether they end in one. -/
def skipGroups (first : Bool) : (limit : Nat) → List Char → Nat × Bool × List Char
  | 0, text => (0, false, text)
  | limit + 1, text =>
    match if first then some text else skipChar? ':' text with
    | none => (0, false, text)
    | some start =>
      match if limit = 0 then none else skipIpv4? start with
      | some rest => (2, true, rest)
      | none =>
        match skipGroup? start with
        | some rest =>
          let (count, ipv4, rest) := skipGroups false limit rest
          (count + 1, ipv4, rest)
        | none => (0, false, text)

def skipIpv6? (text : List Char) : Option (List Char) :=
  match skipGroups true 8 text with
  | (8, _, rest) => some rest
  | (_, true, _) => none
  | (count, false, rest) => do
    let rest ← skipChar? ':' (← skipChar? ':' rest)
    return (skipGroups true (7 - count) rest).2.2

def isValid (text : String) : Bool :=
  let afterHost := match text.toList with
    | '[' :: rest => do
      let rest ← skipIpv6? rest
      let rest ← match rest with
        | '%' :: scope => skipNumber? 10 4294967295 scope
        | rest => some rest
      skipChar? ']' rest
    | chars => skipIpv4? chars
  match (do skipNumber? 10 65535 (← skipChar? ':' (← afterHost)) : Option (List Char)) with
  | some [] => true
  | _ => false

end SpotExchange.SocketAddress
