import SchemaKeeper.Json.Tree
import SchemaKeeper.Number.Numeral

/-!
# Reading documents

`Tree.read?` follows RFC 8259 strictly.  What follows the grammar but has no value becomes an
unreadable part: a lone surrogate, a number beyond the finite ones, an array or object below 127
others.
-/
namespace SchemaKeeper

namespace Tree

/-- A piece of a string: a character, or a code unit written with four hexadecimal digits. -/
inductive Piece where
  | char (c : Char)
  | unit (n : Nat)

/-- The value of a hexadecimal digit. -/
def hexValue? (c : Char) : Option Nat :=
  if '0' ≤ c ∧ c ≤ '9' then some (c.toNat - 48)
  else if 'a' ≤ c ∧ c ≤ 'f' then some (c.toNat - 87)
  else if 'A' ≤ c ∧ c ≤ 'F' then some (c.toNat - 55)
  else none

/-- The character that a backslash and a letter stand for. -/
def escaped? : Char → Option Char
  | '"' => some '"'
  | '\\' => some '\\'
  | '/' => some '/'
  | 'b' => some (Char.ofNat 8)
  | 'f' => some (Char.ofNat 12)
  | 'n' => some '\n'
  | 'r' => some '\r'
  | 't' => some '\t'
  | _ => none

/-- Four hexadecimal digits. -/
def scanUnit? : List Char → Option (Nat × List Char)
  | a :: b :: c :: d :: rest => do
    let a ← hexValue? a
    let b ← hexValue? b
    let c ← hexValue? c
    let d ← hexValue? d
    return (((a * 16 + b) * 16 + c) * 16 + d, rest)
  | _ => none

/-- The pieces of a string up to its closing quotation mark. -/
def scanPieces? : Nat → List Char → Option (List Piece × List Char)
  | 0, _ => none
  | _, [] => none
  | fuel + 1, c :: cs =>
    if c = '"' then some ([], cs)
    else if c = '\\' then
      match cs with
      | 'u' :: cs => do
        let (n, cs) ← scanUnit? cs
        let (ps, cs) ← scanPieces? fuel cs
        return (.unit n :: ps, cs)
      | e :: cs => do
        let e ← escaped? e
        let (ps, cs) ← scanPieces? fuel cs
        return (.char e :: ps, cs)
      | [] => none
    else if c.toNat < 32 then none
    else do
      let (ps, cs) ← scanPieces? fuel cs
      return (.char c :: ps, cs)

/-- Joins code units to characters; a surrogate needs its partner at its side. -/
def assemble? : List Piece → Option (List Char)
  | [] => some []
  | .char c :: ps => (assemble? ps).map (c :: ·)
  | .unit n :: ps =>
    if n < 0xD800 ∨ 0xE000 ≤ n then (assemble? ps).map (Char.ofNat n :: ·)
    else if n < 0xDC00 then
      match ps with
      | .unit m :: ps =>
        if 0xDC00 ≤ m ∧ m < 0xE000 then
          (assemble? ps).map (Char.ofNat (0x10000 + (n - 0xD800) * 1024 + (m - 0xDC00)) :: ·)
        else none
      | _ => none
    else none

/-- A string after its opening quotation mark: the text, or nothing if it holds a lone
surrogate. -/
def scanString? (cs : List Char) : Option (Option String × List Char) :=
  (scanPieces? (cs.length + 1) cs).map fun (ps, rest) => ((assemble? ps).map String.ofList, rest)

/-- Passes over space, tab and line ends. -/
def skipSpace (cs : List Char) : List Char :=
  cs.dropWhile fun c => c == ' ' || c == '\t' || c == '\n' || c == '\r'

/-- The levels of arrays and objects within which values are readable. -/
def depthLimit : Nat := 127

/-- A container that counts only within the depth limit. -/
def within (depth : Nat) (t : Tree) : Tree := if depth < depthLimit then t else .unreadable

/-- An object from its members; it is unreadable if a name is. -/
def ofScanned (members : List (Option String × Tree)) : Tree :=
  match members.mapM fun m => m.1.map fun k => (k, m.2) with
  | some members => .object members
  | none => .unreadable

/-- The rest of the text after a fixed word. -/
def afterWord? (word : List Char) (cs : List Char) : Option (List Char) :=
  if word.isPrefixOf cs then some (cs.drop word.length) else none

/-- A number, unreadable if it is not finite. -/
def scanNumber? (cs : List Char) : Option (Tree × List Char) :=
  (Numeral.scan? cs).map fun (n, rest) =>
    match n.value? with
    | some (.int n) => (.int n, rest)
    | some (.float x) => (.float x, rest)
    | none => (.unreadable, rest)

mutual

/-- A value at the front of a text, without the space before it. -/
def scanValue? : Nat → Nat → List Char → Option (Tree × List Char)
  | 0, _, _ => none
  | fuel + 1, depth, cs =>
    match skipSpace cs with
    | '"' :: cs => (scanString? cs).map fun (s, rest) =>
        (match s with | some s => .string s | none => .unreadable, rest)
    | '[' :: cs =>
      match skipSpace cs with
      | ']' :: cs => some (within depth (.array []), cs)
      | cs => (scanItems? fuel (depth + 1) cs).map fun (items, rest) =>
          (within depth (.array items), rest)
    | '\x7b' :: cs =>
      match skipSpace cs with
      | '\x7d' :: cs => some (within depth (.object []), cs)
      | cs => (scanMembers? fuel (depth + 1) cs).map fun (members, rest) =>
          (within depth (ofScanned members), rest)
    | 't' :: cs => (afterWord? ['r', 'u', 'e'] cs).map fun rest => (.bool true, rest)
    | 'f' :: cs => (afterWord? ['a', 'l', 's', 'e'] cs).map fun rest => (.bool false, rest)
    | 'n' :: cs => (afterWord? ['u', 'l', 'l'] cs).map fun rest => (.null, rest)
    | cs => scanNumber? cs

/-- The items of an array up to its bracket; there is at least one. -/
def scanItems? : Nat → Nat → List Char → Option (List Tree × List Char)
  | 0, _, _ => none
  | fuel + 1, depth, cs => do
    let (t, cs) ← scanValue? fuel depth cs
    match skipSpace cs with
    | ',' :: cs => do
      let (ts, cs) ← scanItems? fuel depth cs
      return (t :: ts, cs)
    | ']' :: cs => return ([t], cs)
    | _ => none

/-- The members of an object up to its brace; there is at least one. -/
def scanMembers? : Nat → Nat → List Char → Option (List (Option String × Tree) × List Char)
  | 0, _, _ => none
  | fuel + 1, depth, cs =>
    match skipSpace cs with
    | '"' :: cs => do
      let (name, cs) ← scanString? cs
      match skipSpace cs with
      | ':' :: cs => do
        let (t, cs) ← scanValue? fuel depth cs
        match skipSpace cs with
        | ',' :: cs => do
          let (ms, cs) ← scanMembers? fuel depth cs
          return ((name, t) :: ms, cs)
        | '\x7d' :: cs => return ([(name, t)], cs)
        | _ => none
      | _ => none
    | _ => none

end

/-- The tree that a text says; nothing but space may follow it. -/
def read? (text : String) : Option Tree :=
  let cs := text.toList
  match scanValue? (2 * cs.length + 2) 0 cs with
  | some (t, rest) => if (skipSpace rest).isEmpty then some t else none
  | none => none

end Tree

/-- The document that a text says. -/
def Json.read? (text : String) : Option Json := Tree.read? text >>= Tree.settle?

end SchemaKeeper
