import Mathlib.Data.List.Basic

/-!
# Lexical paths

A path read without a look at what it names is a list of elements, one of which, `up`, takes back
the element before it.  At the root there is nothing to take back; a relative path keeps what it
cannot take back.  `reduce` is the path that is left.  It is a normal form: reducing a front of a
path first makes no difference (`reduce_reduce_append`), so two paths with one reduced front can be
exchanged below anything (`reduce_append_congr`).
-/

namespace LexicalPath

variable {α : Type*} [DecidableEq α] (up : α)

/-- A path with one more element.  The last element of the path is the head of the list. -/
def push (rooted : Bool) : List α → α → List α
  | [], e => if e = up ∧ rooted = true then [] else [e]
  | last :: rest, e => if e = up ∧ last ≠ up then rest else e :: last :: rest

/-- The path that is left when every element that can be taken back is. -/
def reduce (rooted : Bool) (path : List α) : List α := (path.foldl (push up rooted) []).reverse

/-- Nothing can be taken back: `up` stands at the front of a relative path only. -/
def Reduced (rooted : Bool) : List α → Prop
  | [] => True
  | e :: rest => if e = up then rooted = false ∧ ∀ x ∈ rest, x = up else Reduced rooted rest

section Reduce

variable {up} {rooted : Bool} {path path' rest : List α} {e : α}

theorem push_of_ne (name : e ≠ up) (path : List α) : push up rooted path e = e :: path := by
  cases path with
  | nil => rw [push, if_neg fun both => name both.1]
  | cons last rest => rw [push, if_neg fun both => name both.1]

theorem mem_of_mem_push {x : α} (mem : x ∈ push up rooted path e) : x = e ∨ x ∈ path := by
  cases path with
  | nil =>
      rw [push] at mem
      split at mem
      · cases mem
      · exact .inl (List.mem_singleton.mp mem)
  | cons last rest =>
      rw [push] at mem
      split at mem
      · exact .inr (List.mem_cons_of_mem last mem)
      · exact List.mem_cons.mp mem

/-- Only elements of the path are left. -/
theorem mem_of_mem_reduce {x : α} (mem : x ∈ reduce up rooted path) : x ∈ path := by
  have general : ∀ (es stack : List α), x ∈ es.foldl (push up rooted) stack →
      x ∈ stack ∨ x ∈ es := by
    intro es
    induction es with
    | nil => intro stack inside; exact .inl inside
    | cons e es ih =>
        intro stack inside
        rcases ih _ inside with pushed | later
        · rcases mem_of_mem_push pushed with rfl | before
          · exact .inr List.mem_cons_self
          · exact .inl before
        · exact .inr (List.mem_cons_of_mem e later)
  rcases general path [] (List.mem_reverse.mp mem) with inside | inside
  · cases inside
  · exact inside

theorem reduced_push (reduced : Reduced up rooted path) (e : α) :
    Reduced up rooted (push up rooted path e) := by
  by_cases name : e = up
  · subst name
    cases path with
    | nil =>
        rw [push]
        split
        · trivial
        · next relative =>
          rw [Reduced, if_pos rfl]
          exact ⟨by simpa using relative, by simp⟩
    | cons last rest =>
        rw [push]
        split
        · next takes =>
          rw [Reduced, if_neg takes.2] at reduced
          exact reduced
        · next stays =>
          have last' : last = e := by simpa using stays
          rw [Reduced, if_pos last'] at reduced
          rw [Reduced, if_pos rfl]
          exact ⟨reduced.1, List.forall_mem_cons.mpr ⟨last', reduced.2⟩⟩
  · rw [push_of_ne name, Reduced, if_neg name]
    exact reduced

theorem reduced_foldl_push (reduced : Reduced up rooted path) (es : List α) :
    Reduced up rooted (es.foldl (push up rooted) path) := by
  induction es generalizing path with
  | nil => exact reduced
  | cons e es ih => exact ih (reduced_push reduced e)

/-- A path from which nothing can be taken back is pushed element by element. -/
theorem foldl_push_reverse (reduced : Reduced up rooted path) :
    path.reverse.foldl (push up rooted) [] = path := by
  induction path with
  | nil => rfl
  | cons e rest ih =>
      rw [List.reverse_cons, List.foldl_append, List.foldl_cons, List.foldl_nil]
      rw [Reduced] at reduced
      split at reduced
      · next name =>
        subst name
        have kept : Reduced e rooted rest := by
          cases rest with
          | nil => trivial
          | cons last below =>
              obtain ⟨last', below'⟩ := List.forall_mem_cons.mp reduced.2
              rw [Reduced, if_pos last']
              exact ⟨reduced.1, below'⟩
        rw [ih kept]
        cases rest with
        | nil => rw [push, if_neg fun both => by rw [reduced.1] at both; cases both.2]
        | cons last below =>
            rw [push, if_neg fun both => both.2 (reduced.2 last List.mem_cons_self)]
      · next name => rw [ih reduced, push_of_ne name]

/-- Reducing a front of a path first makes no difference. -/
theorem reduce_reduce_append (path rest : List α) :
    reduce up rooted (reduce up rooted path ++ rest) = reduce up rooted (path ++ rest) := by
  have start : Reduced up rooted ([] : List α) := trivial
  rw [reduce, reduce, reduce, List.foldl_append, List.foldl_append,
    foldl_push_reverse (reduced_foldl_push start path)]

theorem reduce_append_congr (same : reduce up rooted path = reduce up rooted path')
    (rest : List α) : reduce up rooted (path ++ rest) = reduce up rooted (path' ++ rest) := by
  rw [← reduce_reduce_append path, same, reduce_reduce_append]

/-- Names stay. -/
theorem reduce_append_names (names : ∀ e ∈ rest, e ≠ up) (path : List α) :
    reduce up rooted (path ++ rest) = reduce up rooted path ++ rest := by
  induction rest generalizing path with
  | nil => rw [List.append_nil, List.append_nil]
  | cons e rest ih =>
      obtain ⟨name, later⟩ := List.forall_mem_cons.mp names
      have first : reduce up rooted (path ++ [e]) = reduce up rooted path ++ [e] := by
        rw [reduce, List.foldl_append, List.foldl_cons, List.foldl_nil, push_of_ne name,
          List.reverse_cons, reduce]
      rw [List.append_cons, ih later, first, ← List.append_cons]

/-- A name followed by `up` goes. -/
theorem reduce_append_up (name : e ≠ up) (path : List α) :
    reduce up rooted (path ++ [e, up]) = reduce up rooted path := by
  rw [reduce, List.foldl_append, List.foldl_cons, List.foldl_cons, List.foldl_nil,
    push_of_ne name, push, if_pos ⟨rfl, name⟩, reduce]

end Reduce

end LexicalPath
