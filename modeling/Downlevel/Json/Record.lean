import Downlevel.Json.Reader

/-!
# Records in JSON

A record is written as an object, whose keys may come in any order, or as an array of its fields in
the order of their declaration. An object may have keys that are not known; their values are
skipped. A known key must not come twice.

What has been read of a record is a *draft*, in which fields can be missing. The draft becomes
a value at the end of the record.
-/

namespace Downlevel.Json

/-- A field of a record, with a reader that puts its value into a draft. -/
structure Field (Draft : Type) where
  key : String
  read : Reader (Draft → Draft)

namespace Field

/-- A field whose value is put into a draft by `set`. -/
def of {Draft α : Type} (key : String) (read : Reader α) (set : α → Draft → Draft) :
    Field Draft :=
  ⟨key, fun s => (read s).map fun (value, rest) => (set value, rest)⟩

end Field

/-- How a record is read. -/
structure Record (Draft α : Type) where
  /-- The fields in the order of their declaration. -/
  fields : List (Field Draft)
  /-- The draft before anything has been read. -/
  empty : Draft
  /-- The value of a draft; there is none if a field is missing that is needed. -/
  finish : Draft → Option α

/-- The text from the next item of an array on, or nothing where the array ends. -/
def nextItem (first : Bool) (s : List Char) : Except Fault (Option (List Char)) :=
  match skipBlanks s with
  | [] => .error .truncated
  | ']' :: _ => .ok none
  | c :: rest =>
    if first then .ok (some (c :: rest))
    else if c = ',' then
      match skipBlanks rest with
      | [] => .error .truncated
      | ']' :: _ => .error .malformed
      | s => .ok (some s)
    else .error .malformed

/-- The text behind the quote that opens the next key of an object, or nothing where the object
ends. -/
def nextKey (first : Bool) (s : List Char) : Except Fault (Option (List Char)) :=
  match skipBlanks s with
  | [] => .error .truncated
  | '\x7d' :: _ => .ok none
  | c :: rest =>
    if first then if c = '"' then .ok (some rest) else .error .malformed
    else if c = ',' then
      match skipBlanks rest with
      | [] => .error .truncated
      | '"' :: rest => .ok (some rest)
      | _ => .error .malformed
    else .error .malformed

namespace Record

variable {Draft α : Type}

/-- Reads fields in order, as far as the array goes. -/
def readInOrder (draft : Draft) (first : Bool) : (fields : List (Field Draft)) → Reader Draft
  | [], s => .ok (draft, s)
  | field :: fields, s =>
    match nextItem first s with
    | .error fault => .error fault
    | .ok none => .ok (draft, s)
    | .ok (some s) =>
      match field.read s with
      | .error fault => .error fault
      | .ok (set, rest) => readInOrder (set draft) false fields rest

/-- Reads the keys and values of an object, of which some keys have been seen. Every key takes
a part of the text, so that `fuel` need not be more than its length. -/
def readByKey (fields : List (Field Draft)) :
    (fuel : Nat) → (draft : Draft) → (seen : List String) → Reader Draft
  | 0, _, _, _ => .error .truncated
  | fuel + 1, draft, seen, s =>
    match nextKey seen.isEmpty s with
    | .error fault => .error fault
    | .ok none => .ok (draft, s)
    | .ok (some s) =>
      match readQuoted s with
      | .error fault => .error fault
      | .ok (key, rest) =>
        match fields.find? (·.key == key) with
        | none =>
          match (do skipValue (← expect ':' rest)) with
          | .error fault => .error fault
          | .ok rest => readByKey fields fuel draft (key :: seen) rest
        | some field =>
          if seen.contains key then .error .mismatched
          else match (do field.read (← expect ':' rest)) with
            | .error fault => .error fault
            | .ok (set, rest) => readByKey fields fuel (set draft) (key :: seen) rest

/-- The value of a draft, of which no needed field may be missing. -/
def complete (r : Record Draft α) (draft : Draft) : Except Fault α :=
  match r.finish draft with
  | none => .error .mismatched
  | some value => .ok value

/-- A record. -/
def read (r : Record Draft α) : Reader α := fun s =>
  match skipBlanks s with
  | '[' :: rest => do
    let (draft, rest) ← readInOrder r.empty true r.fields rest
    let value ← r.complete draft
    return (value, ← expect ']' rest)
  | '\x7b' :: rest => do
    let (draft, rest) ← readByKey r.fields rest.length r.empty [] rest
    let value ← r.complete draft
    return (value, ← expect '\x7d' rest)
  | s => .error (unwanted s)

/-- A text that is a record and nothing else. -/
def ofText (r : Record Draft α) (text : String) : Except Fault α :=
  match r.read text.toList with
  | .error fault => .error fault
  | .ok (value, rest) => if (skipBlanks rest).isEmpty then .ok value else .error .malformed

end Record

end Downlevel.Json
