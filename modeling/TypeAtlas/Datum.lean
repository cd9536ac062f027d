import TypeAtlas.Number.Basic
import TypeAtlas.Text.Quoted
import TypeAtlas.Text.Parts

/-! # Data

The values that configuration files, cache files and annotation payloads hold. The fields of a
record keep the order in which they were written.
-/

namespace TypeAtlas

inductive Datum where
  | null
  | bool (b : Bool)
  | number (n : Number)
  | text (s : String)
  /-- A date or a time, as written. -/
  | moment (s : String)
  | list (items : List Datum)
  | record (fields : List (String × Datum))
deriving Inhabited

namespace Datum

abbrev int (n : Int) : Datum := .number (.int n)
abbrev float (x : Binary64) : Datum := .number (.float x)

def texts (ss : List String) : Datum := .list (ss.map .text)

def optional {α : Type} (f : α → Datum) : Option α → Datum
  | none => .null
  | some a => f a

mutual

/-- Equal as written: integers and floating-point numbers differ, and fields keep their order. -/
def decEq : (a b : Datum) → Decidable (a = b)
  | .null, .null => isTrue rfl
  | .bool a, .bool b =>
    if h : a = b then isTrue (h ▸ rfl) else isFalse fun e => h (Datum.bool.inj e)
  | .number a, .number b =>
    if h : a = b then isTrue (h ▸ rfl) else isFalse fun e => h (Datum.number.inj e)
  | .text a, .text b =>
    if h : a = b then isTrue (h ▸ rfl) else isFalse fun e => h (Datum.text.inj e)
  | .moment a, .moment b =>
    if h : a = b then isTrue (h ▸ rfl) else isFalse fun e => h (Datum.moment.inj e)
  | .list a, .list b =>
    match decEqList a b with
    | isTrue h => isTrue (h ▸ rfl)
    | isFalse h => isFalse fun e => h (Datum.list.inj e)
  | .record a, .record b =>
    match decEqFields a b with
    | isTrue h => isTrue (h ▸ rfl)
    | isFalse h => isFalse fun e => h (Datum.record.inj e)
  | .null, .bool _ | .null, .number _ | .null, .text _ | .null, .moment _ | .null, .list _
  | .null, .record _ | .bool _, .null | .bool _, .number _ | .bool _, .text _ | .bool _, .moment _
  | .bool _, .list _ | .bool _, .record _ | .number _, .null | .number _, .bool _
  | .number _, .text _ | .number _, .moment _ | .number _, .list _ | .number _, .record _
  | .text _, .null | .text _, .bool _ | .text _, .number _ | .text _, .moment _ | .text _, .list _
  | .text _, .record _ | .moment _, .null | .moment _, .bool _ | .moment _, .number _
  | .moment _, .text _ | .moment _, .list _ | .moment _, .record _ | .list _, .null
  | .list _, .bool _ | .list _, .number _ | .list _, .text _ | .list _, .moment _
  | .list _, .record _ | .record _, .null | .record _, .bool _ | .record _, .number _
  | .record _, .text _ | .record _, .moment _ | .record _, .list _ =>
    isFalse nofun

def decEqList : (a b : List Datum) → Decidable (a = b)
  | [], [] => isTrue rfl
  | x :: xs, y :: ys =>
    match decEq x y, decEqList xs ys with
    | isTrue h, isTrue t => isTrue (h ▸ t ▸ rfl)
    | isFalse h, _ => isFalse fun e => h (List.cons.inj e).1
    | _, isFalse t => isFalse fun e => t (List.cons.inj e).2
  | [], _ :: _ => isFalse nofun
  | _ :: _, [] => isFalse nofun

def decEqFields : (a b : List (String × Datum)) → Decidable (a = b)
  | [], [] => isTrue rfl
  | (k, x) :: xs, (l, y) :: ys =>
    if hk : k = l then
      match decEq x y, decEqFields xs ys with
      | isTrue h, isTrue t => isTrue (hk ▸ h ▸ t ▸ rfl)
      | isFalse h, _ => isFalse fun e => h (Prod.mk.inj (List.cons.inj e).1).2
      | _, isFalse t => isFalse fun e => t (List.cons.inj e).2
    else isFalse fun e => hk (Prod.mk.inj (List.cons.inj e).1).1
  | [], _ :: _ => isFalse nofun
  | _ :: _, [] => isFalse nofun

end

instance : DecidableEq Datum := decEq

/-- The value of a field. When a name is repeated the last one counts. -/
def field? (fields : List (String × Datum)) (name : String) : Option Datum :=
  (fields.reverse.find? fun f => f.1 == name).map Prod.snd

mutual

/-- The form that messages show inside a list or record. -/
def shown : Datum → String
  | .null => "None"
  | .bool b => if b then "True" else "False"
  | .number n => n.text
  | .text s => Text.quote s
  | .moment s => s
  | .list items => "[" ++ Text.join ", " (shownList items) ++ "]"
  | .record fields => "\x7b" ++ Text.join ", " (shownFields fields) ++ "\x7d"

def shownList : List Datum → List String
  | [] => []
  | x :: xs => shown x :: shownList xs

def shownFields : List (String × Datum) → List String
  | [] => []
  | (k, x) :: xs => (Text.quote k ++ ": " ++ shown x) :: shownFields xs

end

/-- The form that messages show: a text stands for itself. -/
def display : Datum → String
  | .text s => s
  | d => d.shown

mutual

/-- No integer has more decimal digits than are shown. -/
def isBrief : Datum → Bool
  | .number (.int n) => n.natAbs < 10 ^ maxDecimalDigits
  | .list items => areBrief items
  | .record fields => haveBrief fields
  | _ => true

def areBrief : List Datum → Bool
  | [] => true
  | x :: xs => isBrief x && areBrief xs

def haveBrief : List (String × Datum) → Bool
  | [] => true
  | (_, x) :: xs => isBrief x && haveBrief xs

end

/-- Null, zero and what is empty do not hold. -/
def holds : Datum → Bool
  | .null => false
  | .bool b => b
  | .number (.int n) => n != 0
  | .number (.float x) => x.reading != .finite false 0 Binary64.leastExponent
      && x.reading != .finite true 0 Binary64.leastExponent
  | .text s => s != ""
  | .moment _ => true
  | .list items => !items.isEmpty
  | .record fields => !fields.isEmpty

end Datum

end TypeAtlas
