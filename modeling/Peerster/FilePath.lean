import Peerster.Bytes
import Peerster.Lib.LexicalPath

/-!
# File paths

Go's `path/filepath` on Unix, as far as the file storage uses it: `Clean` and `Join` of two
elements.  A path is split at its separators; empty elements and `.` are dropped, and `..` takes
back the element before it.
-/

namespace Peerster

namespace FilePath

open LexicalPath

/-- `Separator`, a slash. -/
def separator : UInt8 := 47

/-- The element `.`. -/
def here : GoString := [46]

/-- The element `..`. -/
def up : GoString := [46, 46]

/-- An element of a path that says something. -/
def Proper (e : GoString) : Prop := e ≠ [] ∧ e ≠ here

instance (e : GoString) : Decidable (Proper e) := inferInstanceAs (Decidable (_ ∧ _))

/-- The elements of a path. -/
def elements (path : GoString) : List GoString := (path.splitOn separator).filter (Proper ·)

/-- A path from the root. -/
def isRooted (path : GoString) : Bool := path.head? = some separator

/-- The path with given elements. -/
def render (rooted : Bool) (es : List GoString) : GoString :=
  if rooted then separator :: [separator].intercalate es
  else if es = [] then here
  else [separator].intercalate es

/-- `Clean`. -/
def clean (path : GoString) : GoString :=
  render (isRooted path) (reduce up (isRooted path) (elements path))

/-- `Join` of two elements. -/
def join (a b : GoString) : GoString :=
  if a ≠ [] then clean (a ++ separator :: b) else if b ≠ [] then clean b else []

/-- A name that can stand between separators and is neither `.` nor `..`. -/
def IsName (e : GoString) : Prop := Proper e ∧ e ≠ up ∧ separator ∉ e

instance (e : GoString) : Decidable (IsName e) := inferInstanceAs (Decidable (_ ∧ _))

section Elements

variable {e path path' : GoString} {es es' : List GoString} {rooted rooted' : Bool}

theorem elements_append (path path' : GoString) :
    elements (path ++ separator :: path') = elements path ++ elements path' := by
  rw [elements, List.splitOn_append_cons_self, List.filter_append]
  rfl

theorem elements_of_proper (proper : Proper e) (single : separator ∉ e) : elements e = [e] := by
  rw [elements, List.splitOn_eq_singleton single, List.filter_eq_self]
  intro part mem
  rw [List.mem_singleton.mp mem]
  exact decide_eq_true proper

theorem elements_name (name : IsName e) : elements e = [e] := elements_of_proper name.1 name.2.2

theorem separator_not_mem_of_mem_splitOn (mem : e ∈ path.splitOn separator) : separator ∉ e := by
  induction path generalizing e with
  | nil =>
      rw [List.splitOn_nil] at mem
      rw [List.mem_singleton.mp mem]
      exact List.not_mem_nil
  | cons x path ih =>
      rw [List.splitOn_cons_eq_if_modifyHead] at mem
      split at mem
      · rcases List.mem_cons.mp mem with rfl | later
        · exact List.not_mem_nil
        · exact ih later
      · next other =>
        obtain ⟨first, rest, parts⟩ :=
          List.exists_cons_of_ne_nil (List.splitOn_ne_nil separator path)
        rw [parts, List.modifyHead_cons] at mem
        rw [parts] at ih
        rcases List.mem_cons.mp mem with rfl | later
        · intro inside
          rcases List.mem_cons.mp inside with same | tail
          · exact other (beq_iff_eq.mpr same.symm)
          · exact ih List.mem_cons_self tail
        · exact ih (List.mem_cons_of_mem first later)

/-- An element of a path. -/
theorem proper_of_mem (mem : e ∈ elements path) : Proper e ∧ separator ∉ e := by
  obtain ⟨part, proper⟩ := List.mem_filter.mp mem
  exact ⟨of_decide_eq_true proper, separator_not_mem_of_mem_splitOn part⟩

theorem elements_intercalate (proper : ∀ e ∈ es, Proper e ∧ separator ∉ e) :
    elements ([separator].intercalate es) = es := by
  cases es with
  | nil => rfl
  | cons e es =>
      rw [elements, List.splitOn_intercalate separator (fun e mem => (proper e mem).2)
        (List.cons_ne_nil e es), List.filter_eq_self]
      intro e mem
      exact decide_eq_true (proper e mem).1

theorem elements_render (proper : ∀ e ∈ es, Proper e ∧ separator ∉ e) :
    elements (render rooted es) = es := by
  unfold render
  split
  · have front := elements_append [] ([separator].intercalate es)
    rw [List.nil_append] at front
    rw [front, elements_intercalate proper]
    rfl
  · split
    · next none => rw [none]; rfl
    · exact elements_intercalate proper

theorem isRooted_render (proper : ∀ e ∈ es, Proper e ∧ separator ∉ e) :
    isRooted (render rooted es) = rooted := by
  unfold render
  split
  · next root => rw [root]; rfl
  · next relative =>
    rw [Bool.not_eq_true] at relative
    rw [relative]
    split
    · rfl
    · next some =>
      obtain ⟨e, rest, rfl⟩ := List.exists_cons_of_ne_nil some
      obtain ⟨⟨filled, -⟩, single⟩ := proper e List.mem_cons_self
      obtain ⟨x, e, rfl⟩ := List.exists_cons_of_ne_nil filled
      have first : ([separator].intercalate ((x :: e) :: rest)).head? = Option.some x := by
        cases rest with
        | nil => rw [List.intercalate_singleton]; rfl
        | cons e' rest => rw [List.intercalate_cons_cons]; rfl
      rw [isRooted, first, decide_eq_false_iff_not]
      intro same
      cases same
      exact single List.mem_cons_self

end Elements

/-! ## Joining -/

section Join

variable {e key name name' : GoString} {es : List GoString} {rooted : Bool}

theorem proper_of_mem_reduce {path : GoString} (mem : e ∈ reduce up rooted (elements path)) :
    Proper e ∧ separator ∉ e :=
  proper_of_mem (mem_of_mem_reduce mem)

theorem clean_ne_nil (path : GoString) : clean path ≠ [] := by
  rw [clean, render]
  split
  · exact List.cons_ne_nil _ _
  · split
    · exact List.cons_ne_nil _ _
    · next some =>
      intro vacant
      have left := elements_intercalate (fun e mem => proper_of_mem_reduce mem :
        ∀ e ∈ reduce up (isRooted path) (elements path), Proper e ∧ separator ∉ e)
      rw [vacant] at left
      exact some left.symm

/-- A path below a cleaned one. -/
theorem join_clean (path key : GoString) : join (clean path) key =
    render (isRooted path) (reduce up (isRooted path) (elements path ++ elements key)) := by
  have rooted : isRooted (clean path ++ separator :: key) = isRooted path := by
    obtain ⟨x, rest, filled⟩ := List.exists_cons_of_ne_nil (clean_ne_nil path)
    have front : isRooted (clean path ++ separator :: key) = isRooted (clean path) := by
      rw [filled]
      rfl
    rw [front]
    exact isRooted_render fun e mem => proper_of_mem_reduce mem
  have below : elements (clean path ++ separator :: key) =
      reduce up (isRooted path) (elements path) ++ elements key := by
    rw [elements_append]
    exact congrArg (· ++ elements key) (elements_render fun e mem => proper_of_mem_reduce mem)
  rw [join, if_pos (clean_ne_nil path), clean, rooted, below, reduce_reduce_append]

/-- A folder of a given name. -/
theorem exists_join_name (root : GoString) (isName : IsName name) :
    ∃ path, join root name = clean path ∧ isRooted path = isRooted root ∧
      elements path = elements root ++ [name] := by
  have filled : name ≠ [] := isName.1.1
  cases root with
  | nil =>
      refine ⟨name, ?_, ?_, elements_name isName⟩
      · rw [join, if_neg (fun some => some rfl), if_pos filled]
      · obtain ⟨x, rest, rfl⟩ := List.exists_cons_of_ne_nil filled
        have other : ¬ some x = some separator := by
          intro same
          cases same
          exact isName.2.2 List.mem_cons_self
        exact (decide_eq_false other).trans rfl
  | cons x root =>
      refine ⟨(x :: root) ++ separator :: name, ?_, rfl, ?_⟩
      · rw [join, if_pos (List.cons_ne_nil x root)]
      · rw [elements_append, elements_name isName]

/-- A path below a folder of a given name. -/
theorem join_join (root key : GoString) (isName : IsName name) : join (join root name) key =
    render (isRooted root) (reduce up (isRooted root) (elements root ++ name :: elements key)) := by
  obtain ⟨path, joined, rooted, parts⟩ := exists_join_name root isName
  rw [joined, join_clean, rooted, parts, List.append_assoc]
  rfl

/-- A path that goes up and into another folder is a path below that folder. -/
theorem join_join_up (root key : GoString) (isName : IsName name) (isName' : IsName name') :
    join (join root name) (up ++ separator :: (name' ++ separator :: key)) =
      join (join root name') key := by
  have ups : elements up = [up] := by decide
  rw [join_join root _ isName, join_join root _ isName', elements_append, elements_append, ups,
    elements_name isName']
  congr 1
  have back : reduce up (isRooted root) (elements root ++ [name, up]) =
      reduce up (isRooted root) (elements root) := reduce_append_up isName.2.1 _
  have same := reduce_append_congr back (name' :: elements key)
  rw [List.append_assoc] at same
  exact same

theorem intercalate_concat {sep : GoString} (filled : es ≠ []) (e : GoString) :
    sep.intercalate (es ++ [e]) = sep.intercalate es ++ (sep ++ e) := by
  induction es with
  | nil => exact (filled rfl).elim
  | cons first es ih =>
      cases es with
      | nil => simp [List.intercalate_cons_cons]
      | cons second es =>
          have rest := ih (List.cons_ne_nil second es)
          simp only [List.cons_append, List.intercalate_cons_cons, List.append_assoc] at rest ⊢
          rw [rest]

/-- The elements of a file in a folder. -/
theorem join_file (root : GoString) (isName : IsName name) (isKey : IsName key) :
    join (join root name) key = join root name ++ separator :: key ∧
      elements (join (join root name) key) =
        reduce up (isRooted root) (elements root) ++ [name, key] := by
  obtain ⟨path, joined, rooted, parts⟩ := exists_join_name root isName
  have folder : join root name = render (isRooted root)
      (reduce up (isRooted root) (elements root) ++ [name]) := by
    rw [joined, clean, rooted, parts, reduce_append_names]
    intro e mem
    rw [List.mem_singleton.mp mem]
    exact isName.2.1
  have file : join (join root name) key = render (isRooted root)
      (reduce up (isRooted root) (elements root) ++ [name, key]) := by
    rw [join_join root key isName, elements_name isKey, reduce_append_names]
    exact List.forall_mem_cons.mpr ⟨isName.2.1, List.forall_mem_cons.mpr ⟨isKey.2.1, by simp⟩⟩
  constructor
  · have some : reduce up (isRooted root) (elements root) ++ [name] ≠ [] := by simp
    have more : reduce up (isRooted root) (elements root) ++ [name, key] =
        (reduce up (isRooted root) (elements root) ++ [name]) ++ [key] := by simp
    rw [file, folder, render, render, more, intercalate_concat some]
    split
    · rfl
    · rw [if_neg (by simp)]
      rfl
  · rw [file, elements_render]
    intro e mem
    rcases List.mem_append.mp mem with inside | last
    · exact proper_of_mem_reduce inside
    · rcases List.mem_cons.mp last with rfl | last
      · exact ⟨isName.1, isName.2.2⟩
      · rw [List.mem_singleton.mp last]
        exact ⟨isKey.1, isKey.2.2⟩

end Join

end FilePath

end Peerster
