import Mathlib.Data.Nat.Notation

/-!
# Reader/writer locks

A lock counts its readers and has a flag for a writer, which holds the lock or waits for the readers
to leave; either way no reader gets in.  An operation that cannot proceed waits: it is `none`, or,
where the lock remembers who waits, it has the value `false`.
-/

/-- A reader/writer lock. -/
structure RWMutex where
  readers : ℕ
  writer : Bool
  deriving DecidableEq

namespace RWMutex

/-- Nobody has the lock. -/
def free : RWMutex := ⟨0, false⟩

/-- A reader enters, unless there is a writer. -/
def rLock (m : RWMutex) : Option RWMutex :=
  if m.writer then none else some { m with readers := m.readers + 1 }

/-- A reader leaves. -/
def rUnlock (m : RWMutex) : RWMutex := { m with readers := m.readers - 1 }

/-- A writer announces itself, and enters if there is neither a writer nor a reader. -/
def lock (m : RWMutex) : RWMutex × Bool :=
  ({ m with writer := true }, !m.writer && m.readers = 0)

/-- The writer leaves. -/
def unlock (m : RWMutex) : RWMutex := { m with writer := false }

variable {m m' : RWMutex}

theorem readers_of_rLock (entered : m.rLock = some m') : m'.readers = m.readers + 1 := by
  unfold rLock at entered
  split at entered
  · cases entered
  · cases entered
    rfl

/-- A reader that leaves makes the lock as it was before it entered. -/
theorem rUnlock_of_rLock (entered : m.rLock = some m') : m'.rUnlock = m := by
  unfold rLock at entered
  split at entered
  · cases entered
  · cases entered
    rfl

@[simp] theorem rLock_free : free.rLock = some ⟨1, false⟩ := rfl

@[simp] theorem lock_free : free.lock = (⟨0, true⟩, true) := rfl

/-- A writer waits as long as there is a reader. -/
theorem lock_waits (reader : m.readers ≠ 0) : m.lock.2 = false := by
  simp [lock, reader]

end RWMutex
