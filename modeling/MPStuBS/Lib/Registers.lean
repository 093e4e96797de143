import MPStuBS.Lib.BitLayout

/-!
# Device registers

Of each register of a device software can write some bits (`writable`), and the device
changes the others at any time (`activity`). Register files that agree in all writable
bits are the `Same` to software. A change of a register that is computed bit by bit, or
field by field, is `Uniform`; then it does not matter that the device is active between
the load and the store of a read-modify-write: the result is the `Same` as that of the
change executed at once (`Same.modify_store`).
-/

set_option autoImplicit false

namespace MPStuBS.Lib

universe u

/-- The change keeps words alike that are alike in some bits. -/
def Uniform {w : Nat} (change : BitVec w → BitVec w) : Prop :=
  ∀ mask x y, AgreeOn mask x y → AgreeOn mask (change x) (change y)

theorem Uniform.comp {w : Nat} {change change' : BitVec w → BitVec w} (h : Uniform change)
    (h' : Uniform change') : Uniform fun x => change (change' x) :=
  fun mask x y hxy => h mask _ _ (h' mask x y hxy)

theorem uniform_set {ι : Type u} {w : Nat} (L : BitLayout ι w) (i : ι)
    (v : BitVec (L.width i)) : Uniform (L.set i v) :=
  fun _ _ _ h => BitLayout.set_agreeOn h v

namespace Registers

section Agreement

variable {ρ : Type u} {w : Nat} (writable : ρ → BitVec w)

/-- The device changes the bits that software cannot write. -/
def activity (s bits : ρ → BitVec w) : ρ → BitVec w := fun r => merge (writable r) (s r) (bits r)

/-- Agreement in all writable bits. -/
def Same (s s' : ρ → BitVec w) : Prop := ∀ r, AgreeOn (writable r) (s r) (s' r)

variable {writable} {s s' s'' : ρ → BitVec w}

theorem Same.refl (s : ρ → BitVec w) : Same writable s s := fun _ => AgreeOn.refl _

theorem Same.trans (h : Same writable s s') (h' : Same writable s' s'') : Same writable s s'' :=
  fun r => (h r).trans (h' r)

theorem same_activity (s bits : ρ → BitVec w) : Same writable s (activity writable s bits) :=
  fun r => (agreeOn_merge (writable r) (s r) (bits r)).symm

end Agreement

section Stores

variable {ρ : Type u} [DecidableEq ρ] {w : Nat} (writable : ρ → BitVec w)

/-- A store takes effect in the writable bits. -/
def store (s : ρ → BitVec w) (r : ρ) (value : BitVec w) : ρ → BitVec w :=
  Function.update s r (merge (writable r) value (s r))

/-- A register changed at once. -/
def modify (s : ρ → BitVec w) (r : ρ) (change : BitVec w → BitVec w) : ρ → BitVec w :=
  Function.update s r (change (s r))

variable {writable} {s s' : ρ → BitVec w} {r q : ρ} {change : BitVec w → BitVec w}

theorem modify_self : modify s r change r = change (s r) := Function.update_self r _ s

theorem modify_of_ne (h : q ≠ r) : modify s r change q = s q := Function.update_of_ne h _ s

/-- A store into a register without writable bits changes nothing that software can write. -/
theorem same_store_of_readOnly (h : writable r = 0) (s : ρ → BitVec w) (value : BitVec w) :
    Same writable s (store writable s r value) := by
  intro q n hn
  by_cases hq : q = r
  · rw [hq, h] at hn
    simp at hn
  · rw [store, Function.update_of_ne hq]

/-- A uniform change, executed at once, or loaded at some time and stored later. -/
theorem Same.modify_store {value : BitVec w} (h : Same writable s s') (hchange : Uniform change)
    (hvalue : AgreeOn (writable r) value (change (s' r))) :
    Same writable (modify s r change) (store writable s' r value) := by
  intro q
  by_cases hq : q = r
  · subst hq
    rw [modify_self, store, Function.update_self]
    exact ((hchange _ _ _ (h q)).trans hvalue.symm).trans (agreeOn_merge _ _ _).symm
  · rw [modify_of_ne hq, store, Function.update_of_ne hq]
    exact h q

end Stores

end Registers

end MPStuBS.Lib
