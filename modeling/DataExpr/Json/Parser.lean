import DataExpr.Json.Basic
import DataExpr.Json.Token

/-!
# Reading JSON texts

Reading has two stages.  The tokens of a text are put together to a draft, which
has the shape of a document but whose strings and numbers have not been looked at.
A draft then becomes a document, if its numbers are in range, its strings are
well formed and it is not nested too deeply.  A reader that skips a part of a
text only needs that part to have a draft.
-/

namespace DataExpr.Json

/-- A document whose strings and numbers are still as written. -/
inductive Draft where
  | null
  | bool (b : Bool)
  | num (n : Numeral)
  | str (pieces : List Piece)
  | arr (items : List Draft)
  | obj (members : List (List Piece × Draft))

namespace Draft

/-- A literal name or a numeral. -/
def ofWord? (chars : List Char) : Option Draft :=
  if chars = "null".toList then some .null
  else if chars = "true".toList then some (.bool true)
  else if chars = "false".toList then some (.bool false)
  else (Numeral.ofChars? chars).map .num

/-- An array or object that is not closed yet; what it holds is reversed. -/
inductive Open where
  | arr (items : List Draft)
  | obj (members : List (List Piece × Draft)) (name : List Piece)

/-- What may come next. -/
inductive Expected where
  /-- A value, or also the end of an array that has just been opened. -/
  | value (orClose : Bool)
  /-- A member's name, or also the end of an object that has just been opened. -/
  | name (orClose : Bool)
  | colon
  /-- A comma or the end of the innermost container; nothing at the outermost level. -/
  | more

/-- The containers around the current position, innermost first, what is expected, and
    the finished document at the outermost level. -/
structure Position where
  opened : List Open
  expected : Expected
  result : Option Draft

def start : Position := ⟨[], .value false, none⟩

/-- Puts a finished value where it belongs. -/
def place (p : Position) (v : Draft) : Position :=
  match p.opened with
  | [] => ⟨[], .more, some v⟩
  | .arr items :: outer => ⟨.arr (v :: items) :: outer, .more, none⟩
  | .obj members name :: outer => ⟨.obj ((name, v) :: members) name :: outer, .more, none⟩

/-- Reads the token at which a value starts. -/
def beginValue (p : Position) : Token → Option Position
  | .openArr => some ⟨.arr [] :: p.opened, .value true, none⟩
  | .openObj => some ⟨.obj [] [] :: p.opened, .name true, none⟩
  | .str pieces => some (place p (.str pieces))
  | .word chars => (ofWord? chars).map (place p)
  | _ => none

/-- Closes the innermost container with the bracket that belongs to it. -/
def close (p : Position) (t : Token) : Option Position :=
  match p.opened, t with
  | .arr items :: outer, .closeArr => some (place { p with opened := outer } (.arr items.reverse))
  | .obj members _ :: outer, .closeObj =>
    some (place { p with opened := outer } (.obj members.reverse))
  | _, _ => none

/-- Reads one token. -/
def step (p : Position) (t : Token) : Option Position :=
  match p.expected with
  | .value orClose =>
    match beginValue p t with
    | some q => some q
    | none => if orClose then close p t else none
  | .name orClose =>
    match t, p.opened with
    | .str pieces, .obj members _ :: outer => some ⟨.obj members pieces :: outer, .colon, none⟩
    | _, _ => if orClose then close p t else none
  | .colon =>
    match t with
    | .colon => some { p with expected := .value false }
    | _ => none
  | .more =>
    match t, p.opened with
    | .comma, .arr _ :: _ => some { p with expected := .value false }
    | .comma, .obj _ _ :: _ => some { p with expected := .name false }
    | _, _ => close p t

/-- The draft of a whole text. -/
def parse? (text : String) : Option Draft := do
  let tokens ← tokens? text
  let final ← tokens.foldlM step start
  match final.opened with
  | [] => final.result
  | _ => none

end Draft

mutual

/-- The document of a draft with at most `depth` nested containers. -/
def ofDraft? (depth : Nat) : Draft → Option Json
  | .null => some .null
  | .bool b => some (.bool b)
  | .num n => n.value?.map fun
    | .inl i => .int i
    | .inr x => .float x
  | .str pieces => (textOf? pieces).map fun cs => .str (String.ofList cs)
  | .arr items => if depth = 0 then none else (ofDrafts? (depth - 1) items).map .arr
  | .obj members =>
    if depth = 0 then none else (ofMemberDrafts? (depth - 1) members).map ofMembers
termination_by structural d => d

def ofDrafts? (depth : Nat) : List Draft → Option (List Json)
  | [] => some []
  | d :: ds => do
    let j ← ofDraft? depth d
    let js ← ofDrafts? depth ds
    some (j :: js)
termination_by structural ds => ds

def ofMemberDrafts? (depth : Nat) : List (List Piece × Draft) → Option (List (String × Json))
  | [] => some []
  | m :: ms => do
    let j ← ofMemberDraft? depth m
    let js ← ofMemberDrafts? depth ms
    some (j :: js)
termination_by structural ms => ms

def ofMemberDraft? (depth : Nat) : List Piece × Draft → Option (String × Json)
  | (name, d) => do
    let cs ← textOf? name
    let j ← ofDraft? depth d
    some (String.ofList cs, j)
termination_by structural m => m

end

/-- The document of a text; containers nest at most 127 deep. -/
def parse? (text : String) : Option Json := (Draft.parse? text).bind (ofDraft? 127)

end DataExpr.Json
