import Mathlib.Logic.Function.Basic

/-!
# The spinlock

`Spinlock` of `machine/spinlock.h`. `lock` repeats an atomic test-and-set until
it returns zero, `unlock` is an atomic store of zero.
-/

set_option autoImplicit false

namespace MPStuBS.Machine

/-- The word `_lock` (`unsigned int`). -/
structure Spinlock where
  lock : BitVec 32

namespace Spinlock

/-- The constructor calls `unlock`. -/
def init : Spinlock := ⟨0⟩

/-- `__sync_lock_test_and_set(&_lock, 1)`: the old word. -/
def testAndSet (l : Spinlock) : BitVec 32 × Spinlock := (l.lock, { l with lock := 1 })

/-- `__sync_lock_release(&_lock)`. -/
def release (l : Spinlock) : Spinlock := { l with lock := 0 }

end Spinlock

end MPStuBS.Machine
