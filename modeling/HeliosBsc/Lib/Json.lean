import Mathlib.Data.List.Basic
import Mathlib.Tactic.Common

/-!
# JSON values

A parsed JSON document. The fields of an object are listed with their keys; a field is read by its
key and written in place of the one that had it.
-/

/-- A JSON value; a number is given by its text. -/
inductive Json where
  | null
  | bool (b : Bool)
  | number (text : String)
  | string (s : String)
  | array (items : List Json)
  | object (fields : List (String × Json))

namespace Json

/-- The members of an object. -/
abbrev Fields := List (String × Json)

/-- The members of an object, if the value is one. -/
def asObject : Json → Option Fields
  | object fields => some fields
  | _ => none

namespace Fields

/-- The member with this key. -/
def get? (fields : Fields) (key : String) : Option Json :=
  (fields.find? fun f => f.1 = key).map Prod.snd

/-- The members with this one written, in the place of the one with its key. -/
def insert (key : String) (v : Json) : Fields → Fields
  | [] => [(key, v)]
  | f :: fields => if f.1 = key then (key, v) :: fields else f :: insert key v fields

theorem get?_cons_self (key : String) (v : Json) (fields : Fields) :
    get? ((key, v) :: fields) key = some v := by
  unfold get?
  rw [List.find?_cons_of_pos (by simp)]
  rfl

theorem get?_cons_of_ne {key : String} {f : String × Json} (h : f.1 ≠ key) (fields : Fields) :
    get? (f :: fields) key = get? fields key := by
  unfold get?
  rw [List.find?_cons_of_neg (by simpa using h)]

@[simp] theorem get?_insert_self (key : String) (v : Json) (fields : Fields) :
    (insert key v fields).get? key = some v := by
  induction fields with
  | nil => exact get?_cons_self key v []
  | cons f fields ih =>
    unfold insert
    split
    · exact get?_cons_self key v fields
    · next h => rw [get?_cons_of_ne h, ih]

theorem get?_insert_of_ne {key key' : String} (h : key ≠ key') (v : Json) (fields : Fields) :
    (insert key' v fields).get? key = fields.get? key := by
  induction fields with
  | nil => exact get?_cons_of_ne (Ne.symm h) []
  | cons f fields ih =>
    unfold insert
    split
    · next hf =>
      rw [get?_cons_of_ne (Ne.symm h), get?_cons_of_ne (by rw [hf]; exact Ne.symm h)]
    · by_cases hk : f.1 = key
      · obtain ⟨k, w⟩ := f
        subst hk
        rw [get?_cons_self, get?_cons_self]
      · rw [get?_cons_of_ne hk, get?_cons_of_ne hk, ih]

theorem get?_append (a b : Fields) (key : String) :
    get? (a ++ b) key = (get? a key).or (get? b key) := by
  unfold get?
  rw [List.find?_append]
  cases a.find? fun f => f.1 = key with
  | none => rfl
  | some f => rfl

theorem get?_insert (f : String × Json) (fields : Fields) (key : String) :
    (insert f.1 f.2 fields).get? key = (get? [f] key).or (fields.get? key) := by
  by_cases h : f.1 = key
  · subst h
    rw [get?_insert_self, get?_cons_self, Option.some_or]
  · rw [get?_insert_of_ne (Ne.symm h), get?_cons_of_ne h]
    rfl

/-- The members with these written, one after the other. -/
def writeAll (fields writes : Fields) : Fields :=
  writes.foldl (fun fields f => insert f.1 f.2 fields) fields

/-- What was written last is read; a key that was not written is read as before. -/
theorem get?_writeAll (fields writes : Fields) (key : String) :
    (writeAll fields writes).get? key = (get? writes.reverse key).or (fields.get? key) := by
  induction writes generalizing fields with
  | nil => rfl
  | cons f writes ih =>
    show (writeAll (insert f.1 f.2 fields) writes).get? key = _
    rw [ih, get?_insert, List.reverse_cons, get?_append, Option.or_assoc]

end Fields

end Json
