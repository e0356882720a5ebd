/-!
# First-in-first-out queues

A queue is kept as its front, in order, and its back, newest first, so that both ends are cheap.
`Queue.toList` is the whole of it, oldest first, and every operation is described by what it does
to that list.

* `Queue.empty`, `Queue.push`, `Queue.pop?`, `Queue.filter`, and `Queue.length`, which is kept
  along.
-/

namespace FsTrace

/-- A queue: its front in order, and its back with the newest item first. -/
structure Queue (α : Type) where
  front : List α
  back : List α
  /-- The number of items. -/
  length : Nat
  length_eq : length = front.length + back.length

namespace Queue

variable {α : Type}

/-- The items, oldest first. -/
def toList (q : Queue α) : List α := q.front ++ q.back.reverse

/-- The queue of these items, oldest first. -/
def ofList (items : List α) : Queue α := ⟨items, [], items.length, by simp⟩

/-- The queue without items. -/
def empty : Queue α := ofList []

/-- Adds an item at the end. -/
def push (q : Queue α) (a : α) : Queue α where
  front := q.front
  back := a :: q.back
  length := q.length + 1
  length_eq := by simp only [q.length_eq, List.length_cons, Nat.add_assoc]

/-- Takes the oldest item off. -/
def pop? (q : Queue α) : Option (α × Queue α) :=
  match hf : q.front with
  | a :: front =>
    some (a, ⟨front, q.back, q.length - 1, by
      have := q.length_eq
      simp only [hf, List.length_cons] at this
      omega⟩)
  | [] =>
    match q.back.reverse with
    | [] => none
    | a :: front => some (a, ofList front)

/-- Keeps the items that satisfy `p`, in order. -/
def filter (p : α → Bool) (q : Queue α) : Queue α := ofList (q.toList.filter p)

@[simp] theorem toList_ofList (items : List α) : (ofList items).toList = items := by
  simp [ofList, toList]

@[simp] theorem toList_empty : (empty : Queue α).toList = [] := rfl

@[simp] theorem toList_push (q : Queue α) (a : α) : (q.push a).toList = q.toList ++ [a] := by
  simp [push, toList]

@[simp] theorem toList_filter (p : α → Bool) (q : Queue α) :
    (q.filter p).toList = q.toList.filter p := by
  simp [filter]

@[simp] theorem length_toList (q : Queue α) : q.toList.length = q.length := by
  simp [toList, q.length_eq]

theorem pop?_eq_none_iff {q : Queue α} : q.pop? = none ↔ q.toList = [] := by
  unfold pop? toList
  split
  · simp_all
  · split <;> simp_all

theorem toList_of_pop? {q r : Queue α} {a : α} (h : q.pop? = some (a, r)) :
    q.toList = a :: r.toList := by
  unfold pop? at h
  split at h
  · obtain ⟨rfl, rfl⟩ := by simpa using h
    simp_all [toList]
  · split at h
    · simp at h
    · obtain ⟨rfl, rfl⟩ := by simpa using h
      rw [toList_ofList]
      simp_all [toList]

theorem length_of_pop? {q r : Queue α} {a : α} (h : q.pop? = some (a, r)) :
    q.length = r.length + 1 := by
  rw [← length_toList, ← length_toList, toList_of_pop? h, List.length_cons]

@[simp] theorem length_push (q : Queue α) (a : α) : (q.push a).length = q.length + 1 := by
  simp [push]

end Queue

end FsTrace
