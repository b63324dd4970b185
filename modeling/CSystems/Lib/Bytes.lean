import Mathlib.Algebra.Order.Ring.Int
import Mathlib.Data.List.Basic
import Mathlib.Logic.Function.Basic
import Mathlib.Data.Int.Init

namespace clib.cint

/-- The value of an `int` expression; an overflow leaves it undefined. -/
def int (n : Int) : Option Int := if -2147483648 ≤ n ∧ n ≤ 2147483647 then some n else none

theorem int_eq {n : Int} (hlow : -2147483648 ≤ n) (hhigh : n ≤ 2147483647) : int n = some n := if_pos ⟨hlow, hhigh⟩

theorem isSome_int {n : Int} : (int n).isSome = true ↔ -2147483648 ≤ n ∧ n ≤ 2147483647 := by
  unfold int
  split <;> simp [*]

theorem int_eq_some {n d : Int} : int n = some d ↔ (-2147483648 ≤ n ∧ n ≤ 2147483647) ∧ n = d := by
  rw [int, Option.ite_none_right_eq_some, Option.some_inj]

/-- The value of a `long` expression; an overflow leaves it undefined. -/
def long (n : Int) : Option Int := if -9223372036854775808 ≤ n ∧ n ≤ 9223372036854775807 then some n else none

theorem long_eq {n : Int} (hlow : -9223372036854775808 ≤ n) (hhigh : n ≤ 9223372036854775807) : long n = some n :=
  if_pos ⟨hlow, hhigh⟩

/-- An increment of an `int` below its maximum does not wrap around. -/
theorem toInt_succ {n : Int32} (h : n.toInt < 2147483647) : (n + 1).toInt = n.toInt + 1 := by
  have hle := Int32.le_toInt n
  rw [Int32.toInt_add, Int32.toInt_one]
  exact Int.bmod_eq_of_le (by omega) (by omega)

end clib.cint

namespace clib.bytes

/-- The low bytes of a number, the lowest first. -/
def le_bytes : Nat → Nat → List UInt8
  | 0, _ => []
  | width + 1, n => UInt8.ofNat n :: le_bytes width (n / 256)

/-- The number that bytes spell, the lowest first. -/
def le_nat : List UInt8 → Nat
  | [] => 0
  | b :: bytes => b.toNat + 256 * le_nat bytes

@[simp] theorem length_le_bytes (width n : Nat) : (le_bytes width n).length = width := by
  induction width generalizing n with
  | zero => rfl
  | succ width ih => rw [le_bytes, List.length_cons, ih]

/-- A number that fits is read back from its bytes. -/
theorem le_nat_le_bytes {width n : Nat} (h : n < 256 ^ width) : le_nat (le_bytes width n) = n := by
  induction width generalizing n with
  | zero =>
    rw [Nat.pow_zero] at h
    rw [le_bytes, le_nat]
    omega
  | succ width ih =>
    have hrest : n / 256 < 256 ^ width := by
      rw [Nat.pow_succ] at h
      exact Nat.div_lt_of_lt_mul (by rwa [Nat.mul_comm])
    rw [le_bytes, le_nat, ih hrest, UInt8.toNat_ofNat']
    omega

/-- Bytes are read back from the number they spell. -/
theorem le_bytes_le_nat (bytes : List UInt8) : le_bytes bytes.length (le_nat bytes) = bytes := by
  induction bytes with
  | nil => rfl
  | cons b bytes ih =>
    have hlt := b.toNat_lt
    have hhead : UInt8.ofNat (b.toNat + 256 * le_nat bytes) = b := by
      apply UInt8.toNat_inj.mp
      rw [UInt8.toNat_ofNat']
      omega
    have hrest : (b.toNat + 256 * le_nat bytes) / 256 = le_nat bytes := by omega
    rw [List.length_cons, le_nat, le_bytes, hhead, hrest, ih]

theorem le_nat_lt (bytes : List UInt8) : le_nat bytes < 256 ^ bytes.length := by
  induction bytes with
  | nil => decide
  | cons b bytes ih =>
    have hlt := b.toNat_lt
    rw [le_nat, List.length_cons, Nat.pow_succ]
    omega

end clib.bytes

namespace clib.checksum

/-! Checksums that are folded over the data with a step that loses neither the state nor
the element. -/

variable {σ α : Type} {f : σ → α → σ}

/-- Data behind a difference does not hide it. -/
theorem foldl_injective (hstate : ∀ a, Function.Injective fun s => f s a) (xs : List α) :
    Function.Injective fun s => xs.foldl f s := by
  induction xs with
  | nil => exact fun _ _ h => h
  | cons a xs ih =>
    intro s t h
    exact hstate a (ih h)

/-- Data that differ in one place have different checksums. -/
theorem foldl_set_ne (hstate : ∀ a, Function.Injective fun s => f s a) (helement : ∀ s, Function.Injective (f s))
    {xs : List α} {i : Nat} (hi : i < xs.length) {a : α} (ha : a ≠ xs[i]) (s : σ) :
    (xs.set i a).foldl f s ≠ xs.foldl f s := by
  induction xs generalizing i s with
  | nil => cases hi
  | cons x xs ih =>
    cases i with
    | zero =>
      intro h
      exact ha (helement s (foldl_injective hstate xs h))
    | succ i => exact ih (by simpa using hi) (by simpa using ha) (f s x)

end clib.checksum
