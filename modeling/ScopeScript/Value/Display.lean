import ScopeScript.Value

/-!
# The text of a value, part by part

`displayOnto out v` is `out` followed by `display v`, so the text of an object is the text of its
entries, with commas between them and braces around:

    display (object ⟨es⟩) = "{ " ++ ", ".intercalate (es.map displayEntry) ++ " }"     (es ≠ [])
-/

namespace ScopeScript.Value

/-- The text of one entry of an object. -/
def displayEntry : String × Value → String
  | (k, string s) => k ++ ": \"" ++ s ++ "\""
  | (k, v) => k ++ ": " ++ display v

/-! ## Lemmas -/

/-- Texts one after another, each after a separator but the first, which stands after `first`. -/
def joinFrom (first separator : String) : List String → String
  | [] => ""
  | t :: ts => first ++ t ++ joinFrom separator separator ts

theorem intercalate_cons_eq_joinFrom (sep t : String) (ts : List String) :
    sep.intercalate (t :: ts) = t ++ joinFrom sep sep ts := by
  induction ts generalizing t with
  | nil => simp [joinFrom]
  | cons u ts ih =>
    rw [String.intercalate_cons_cons, ih]
    simp [joinFrom, String.append_assoc]

theorem intercalate_eq_joinFrom (sep : String) (ts : List String) :
    sep.intercalate ts = joinFrom "" sep ts := by
  cases ts with
  | nil => simp [joinFrom]
  | cons t ts => simp [intercalate_cons_eq_joinFrom, joinFrom]

mutual

theorem displayOnto_eq (out : String) (v : Value) : displayOnto out v = out ++ display v := by
  cases v with
  | null => simp [display, displayOnto]
  | number x => simp [display, displayOnto]
  | boolean b => simp [display, displayOnto]
  | string s => simp [display, displayOnto]
  | function f => simp [display, displayOnto, String.append_assoc]
  | native n => simp [display, displayOnto, String.append_assoc]
  | object o =>
    obtain ⟨es⟩ := o
    simp only [display, displayOnto]
    split
    · simp
    · rw [entriesOnto_eq, entriesOnto_eq ("" ++ _)]
      simp [String.append_assoc]

theorem entriesOnto_eq (out separator : String) (es : List (String × Value)) :
    entriesOnto out separator es = out ++ joinFrom separator ", " (es.map displayEntry) := by
  match es with
  | [] => simp [entriesOnto, joinFrom]
  | (k, v) :: es =>
    cases v with
    | string s =>
      simp only [entriesOnto, List.map_cons, displayEntry, joinFrom]
      rw [entriesOnto_eq]
      simp [String.append_assoc]
    | _ =>
      simp only [entriesOnto, List.map_cons, displayEntry, joinFrom]
      rw [entriesOnto_eq, displayOnto_eq]
      simp [String.append_assoc]

end

theorem display_object_nil : display (object ⟨[]⟩) = "\x7b\x7d" := by
  simp [display, displayOnto]

theorem display_object_of_ne_nil {es : List (String × Value)} (h : es ≠ []) :
    display (object ⟨es⟩) = "\x7b " ++ ", ".intercalate (es.map displayEntry) ++ " \x7d" := by
  have he : es.isEmpty = false := by simpa using h
  simp only [display, displayOnto, he]
  rw [entriesOnto_eq, intercalate_eq_joinFrom]
  simp

theorem display_null : display null = "null" := by simp [display, displayOnto]

theorem display_number (x : Float) : display (number x) = formatNumber x := by
  simp [display, displayOnto]

theorem display_boolean (b : Bool) : display (boolean b) = if b then "true" else "false" := by
  simp [display, displayOnto]

theorem display_string (s : String) : display (string s) = s := by simp [display, displayOnto]

theorem display_function (f : Closure) : display (function f) = "<fn " ++ f.name ++ ">" := by
  simp [display, displayOnto]

theorem display_native (n : Native) : display (native n) = "<native fn " ++ n.name ++ ">" := by
  simp [display, displayOnto]

end ScopeScript.Value
