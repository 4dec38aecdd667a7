import DataExpr.Json.Numeral

/-!
# Tokens of JSON texts

A text is cut into brackets, separators, strings and words in one pass over its
characters.  Strings keep escaped code units as they are written, since two of
them may form one character.
-/

namespace DataExpr.Json

/-- A piece of a string: a character, or an escaped code unit of 16 bits. -/
inductive Piece where
  | char (c : Char)
  | unit (code : Nat)
deriving DecidableEq

inductive Token where
  | openArr
  | closeArr
  | openObj
  | closeObj
  | comma
  | colon
  | str (pieces : List Piece)
  /-- A literal name or a numeral. -/
  | word (chars : List Char)

/-- Where in a token the reader stands.  Texts so far are reversed. -/
inductive Reading where
  | between
  | word (chars : List Char)
  | str (pieces : List Piece)
  | escape (pieces : List Piece)
  /-- Inside a code unit: its value so far and how many digits are missing. -/
  | hex (pieces : List Piece) (code missing : Nat)

def isSpace (c : Char) : Bool := c == ' ' || c == '\t' || c == '\n' || c == '\r'

/-- The token that a single character is. -/
def punctuation? (c : Char) : Option Token :=
  if c = '[' then some .openArr
  else if c = ']' then some .closeArr
  else if c = '\x7b' then some .openObj
  else if c = '\x7d' then some .closeObj
  else if c = ',' then some .comma
  else if c = ':' then some .colon
  else none

/-- The character that a one-letter escape stands for. -/
def escaped? (c : Char) : Option Char :=
  if c = '"' || c = '\\' || c = '/' then some c
  else if c = 'b' then some '\x08'
  else if c = 'f' then some '\x0c'
  else if c = 'n' then some '\n'
  else if c = 'r' then some '\r'
  else if c = 't' then some '\t'
  else none

def hexValue? (c : Char) : Option Nat :=
  if '0' ≤ c ∧ c ≤ '9' then some (c.toNat - '0'.toNat)
  else if 'a' ≤ c ∧ c ≤ 'f' then some (c.toNat - 'a'.toNat + 10)
  else if 'A' ≤ c ∧ c ≤ 'F' then some (c.toNat - 'A'.toNat + 10)
  else none

/-- Reads a character outside of any token; `tokens` are reversed. -/
def readBetween (tokens : List Token) (c : Char) : List Token × Reading :=
  if isSpace c then (tokens, .between)
  else if c = '"' then (tokens, .str [])
  else
    match punctuation? c with
    | some t => (t :: tokens, .between)
    | none => (tokens, .word [c])

/-- Reads one character.  `none` means that no text continues this way. -/
def readChar (tokens : List Token) (reading : Reading) (c : Char) :
    Option (List Token × Reading) :=
  match reading with
  | .between => some (readBetween tokens c)
  | .word chars =>
    if isSpace c || c = '"' || (punctuation? c).isSome then
      some (readBetween (.word chars.reverse :: tokens) c)
    else some (tokens, .word (c :: chars))
  | .str pieces =>
    if c = '"' then some (.str pieces.reverse :: tokens, .between)
    else if c = '\\' then some (tokens, .escape pieces)
    else if c.toNat < 0x20 then none
    else some (tokens, .str (.char c :: pieces))
  | .escape pieces =>
    if c = 'u' then some (tokens, .hex pieces 0 4)
    else (escaped? c).map fun d => (tokens, .str (.char d :: pieces))
  | .hex pieces code missing =>
    (hexValue? c).map fun h =>
      let code := code * 16 + h
      if missing ≤ 1 then (tokens, .str (.unit code :: pieces))
      else (tokens, .hex pieces code (missing - 1))

/-- The tokens of a text. -/
def tokensFrom (tokens : List Token) (reading : Reading) : List Char → Option (List Token)
  | [] =>
    match reading with
    | .between => some tokens.reverse
    | .word chars => some (Token.word chars.reverse :: tokens).reverse
    | _ => none
  | c :: rest => do
    let (tokens, reading) ← readChar tokens reading c
    tokensFrom tokens reading rest

def tokens? (text : String) : Option (List Token) := tokensFrom [] .between text.toList

/-- The text of a string; a code unit without its partner has none. -/
def textOf? : List Piece → Option (List Char)
  | [] => some []
  | .char c :: rest => (textOf? rest).map (c :: ·)
  | .unit high :: .unit low :: rest =>
    if 0xd800 ≤ high ∧ high < 0xdc00 then
      if 0xdc00 ≤ low ∧ low < 0xe000 then
        (textOf? rest).map
          (Char.ofNat (0x10000 + (high - 0xd800) * 0x400 + (low - 0xdc00)) :: ·)
      else none
    else if 0xdc00 ≤ high ∧ high < 0xe000 then none
    else (textOf? (.unit low :: rest)).map (Char.ofNat high :: ·)
  | .unit code :: rest =>
    if 0xd800 ≤ code ∧ code < 0xe000 then none
    else (textOf? rest).map (Char.ofNat code :: ·)

end DataExpr.Json
