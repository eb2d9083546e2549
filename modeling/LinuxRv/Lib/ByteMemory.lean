import Mathlib.Data.BitVec
import Mathlib.Tactic.Linarith

/-!
Byte-addressed 32-bit memory with little-endian accesses of any width.

An access of `n` bytes at `a` touches the addresses whose distance from `a`,
computed modulo `2 ^ 32`, is below `n`. Everything a program proof needs is a
comparison of two such windows: a load sees the value of a store to the same
window and nothing of a store to a window it does not meet. Windows are
compared through natural-number offsets from a common base, so the side
conditions are linear arithmetic.
-/

namespace LinuxRv.ByteMemory

open BitVec

variable {a b : Word} {m : Mem} {n o o' : ℕ} {f : ℕ → Byte} {i k : ℕ}

abbrev Word := BitVec 32
abbrev Byte := BitVec 8

/-! The sizes whose indices are written as numerals. -/

instance neZero8 : NeZero 8 := ⟨by decide⟩
instance neZero9 : NeZero 9 := ⟨by decide⟩
instance neZero32 : NeZero 32 := ⟨by decide⟩
instance neZero64 : NeZero 64 := ⟨by decide⟩
instance neZero100 : NeZero 100 := ⟨by decide⟩
instance neZero512 : NeZero 512 := ⟨by decide⟩
instance neZero1024 : NeZero 1024 := ⟨by decide⟩

/-- Memory is total: every one of the `2 ^ 32` addresses holds a byte. -/
abbrev Mem := Word → Byte

/-- The `n` bytes from `a`, the lowest address in the least significant byte. -/
def loadN : (n : ℕ) → Mem → Word → BitVec (8 * n)
  | 0, _, _ => 0#0
  | n + 1, m, a => (m (a + .ofNat 32 n) ++ loadN n m a).cast (by omega)

/-- Store the `n` bytes of `v` from `a` upwards. -/
@[irreducible] def storeN (n : ℕ) (m : Mem) (a : Word) (v : BitVec (8 * n)) : Mem := fun b =>
  if (b - a).toNat < n then v.extractLsb' (8 * (b - a).toNat) 8 else m b

/-- Replace the `n` bytes from `a` by `f 0, f 1, …`. -/
@[irreducible] def fillN (n : ℕ) (m : Mem) (a : Word) (f : ℕ → Byte) : Mem := fun b =>
  if (b - a).toNat < n then f (b - a).toNat else m b

def load32 (m : Mem) (a : Word) : Word := loadN 4 m a

def store32 (m : Mem) (a : Word) (v : Word) : Mem := storeN 4 m a v

def load64 (m : Mem) (a : Word) : BitVec 64 := loadN 8 m a

def store64 (m : Mem) (a : Word) (v : BitVec 64) : Mem := storeN 8 m a v

/-! ### Windows at natural offsets from a base -/

/-- The distance from one offset up to a later one is the difference. -/
theorem toNat_offset_sub (base : Word) (ho : o' < 2 ^ 32) (hle : o ≤ o') :
    ((base + .ofNat 32 o') - (base + .ofNat 32 o)).toNat = o' - o := by
  have hb := base.isLt
  simp only [toNat_sub, toNat_add, toNat_ofNat]
  omega

/-- Going down by `d` wraps to a distance of `2 ^ 32 - d`. -/
theorem toNat_offset_sub_of_lt (base : Word) (ho : o < 2 ^ 32) (hlt : o' < o) :
    ((base + .ofNat 32 o') - (base + .ofNat 32 o)).toNat = 2 ^ 32 - (o - o') := by
  have hb := base.isLt
  simp only [toNat_sub, toNat_add, toNat_ofNat]
  omega

theorem offset_add (base : Word) (o k : ℕ) :
    base + .ofNat 32 o + .ofNat 32 k = base + .ofNat 32 (o + k) := by
  rw [BitVec.add_assoc, ofNat_add]

theorem toNat_add_ofNat_sub_self (a : Word) (hk : k < 2 ^ 32) :
    (a + .ofNat 32 k - a).toNat = k := by
  have ha := a.isLt
  simp only [toNat_sub, toNat_add, toNat_ofNat]
  omega

/-- An offset outside a window of `n` bytes at `o` is at distance at least `n`
from it. The bound keeps the window from wrapping round onto the offset. -/
theorem le_toNat_offset_sub (base : Word) (ho : o + n ≤ 2 ^ 32) (ho' : o' < 2 ^ 32)
    (hout : o' < o ∨ o + n ≤ o') : n ≤ ((base + .ofNat 32 o') - (base + .ofNat 32 o)).toNat := by
  rcases Nat.lt_or_ge o' o with h | h
  · by_cases hlt : o < 2 ^ 32
    · rw [toNat_offset_sub_of_lt base hlt h]; omega
    · omega
  · rw [toNat_offset_sub base ho' h]; omega

theorem le_toNat_sub (h : ∀ k < n, b ≠ a + .ofNat 32 k) : n ≤ (b - a).toNat := by
  by_contra hlt
  refine h _ (Nat.not_le.mp hlt) ?_
  rw [ofNat_toNat, setWidth_eq, BitVec.add_comm, BitVec.sub_add_cancel]

/-! ### One byte of a written memory -/

theorem storeN_of_lt {v : BitVec (8 * n)}
    (h : (b - a).toNat < n) : storeN n m a v b = v.extractLsb' (8 * (b - a).toNat) 8 := by
  unfold storeN
  exact if_pos h

theorem storeN_of_le {v : BitVec (8 * n)} (h : n ≤ (b - a).toNat) : storeN n m a v b = m b := by
  unfold storeN
  exact if_neg (by omega)

theorem fillN_of_lt (h : (b - a).toNat < n) : fillN n m a f b = f (b - a).toNat := by
  unfold fillN
  exact if_pos h

theorem fillN_of_le (h : n ≤ (b - a).toNat) : fillN n m a f b = m b := by
  unfold fillN
  exact if_neg (by omega)

/-- A write inside a window is a write of the whole window that puts back what
was there around it. -/
theorem fillN_within {off len : ℕ} (hn : n ≤ 2 ^ 32) (hfit : off + len ≤ n) (m : Mem) (a : Word)
    (f : ℕ → Byte) : fillN len m (a + .ofNat 32 off) f = fillN n m a fun o =>
      if off ≤ o ∧ o < off + len then f (o - off) else m (a + .ofNat 32 o) := by
  funext b
  obtain ⟨x, hx, rfl⟩ : ∃ x < 2 ^ 32, b = a + .ofNat 32 x :=
    ⟨(b - a).toNat, (b - a).isLt, by rw [ofNat_toNat, setWidth_eq]; simp⟩
  have hself := toNat_add_ofNat_sub_self a hx
  by_cases hin : off ≤ x ∧ x < off + len
  · have hsub := toNat_offset_sub a hx hin.1
    rw [fillN_of_lt (by omega), fillN_of_lt (by omega), hself, hsub, if_pos hin]
  · rw [fillN_of_le (le_toNat_offset_sub a (by omega) hx (by omega))]
    by_cases hx' : x < n
    · rw [fillN_of_lt (by omega), hself, if_neg hin]
    · rw [fillN_of_le (by omega)]

/-! ### Loads -/

theorem getLsbD_loadN (m : Mem) (a : Word) (hi : i < 8 * n) :
    (loadN n m a).getLsbD i = (m (a + .ofNat 32 (i / 8))).getLsbD (i % 8) := by
  induction n with
  | zero => omega
  | succ n ih =>
    rw [loadN, getLsbD_cast, getLsbD_append]
    by_cases h : i < 8 * n
    · simpa [h] using ih h
    · have hdiv : i / 8 = n := by omega
      have hmod : i - 8 * n = i % 8 := by omega
      simp [h, hdiv, hmod]

/-- A load depends only on the bytes of its window. -/
theorem loadN_congr {m' : Mem} {a' : Word}
    (h : ∀ k < n, m (a + .ofNat 32 k) = m' (a' + .ofNat 32 k)) : loadN n m a = loadN n m' a' := by
  apply eq_of_getLsbD_eq
  intro i hi
  rw [getLsbD_loadN m a hi, getLsbD_loadN m' a' hi, h (i / 8) (by omega)]

theorem loadN_zero (n : ℕ) (a : Word) : loadN n (fun _ => 0) a = 0 := by
  apply eq_of_getLsbD_eq
  intro i hi
  rw [getLsbD_loadN _ a hi]
  simp

/-- A byte of a loaded value is the byte of memory it came from. -/
theorem extractLsb'_loadN (m : Mem) (a : Word) (hi : i < n) :
    (loadN n m a).extractLsb' (8 * i) 8 = m (a + .ofNat 32 i) := by
  apply eq_of_getLsbD_eq
  intro j hj
  rw [getLsbD_extractLsb', getLsbD_loadN m a (by omega),
    show (8 * i + j) / 8 = i by omega, show (8 * i + j) % 8 = j by omega]
  simp [hj]

theorem loadN_storeN_self (hn : n ≤ 2 ^ 32) (m : Mem) (a : Word) (v : BitVec (8 * n)) :
    loadN n (storeN n m a v) a = v := by
  apply eq_of_getLsbD_eq
  intro i hi
  have hk : (a + .ofNat 32 (i / 8) - a).toNat = i / 8 :=
    toNat_add_ofNat_sub_self a (by omega)
  rw [getLsbD_loadN _ a hi, storeN_of_lt (by omega), getLsbD_extractLsb', hk]
  have hmod : i % 8 < 8 := Nat.mod_lt _ (by decide)
  rw [show 8 * (i / 8) + i % 8 = i from Nat.div_add_mod i 8]
  simp [hmod]

theorem loadN_storeN_of_disjoint {n' : ℕ} (m : Mem) (base : Word) (v : BitVec (8 * n))
    (ho : o + n ≤ 2 ^ 32) (ho' : o' + n' ≤ 2 ^ 32) (hdis : o + n ≤ o' ∨ o' + n' ≤ o) :
    loadN n' (storeN n m (base + .ofNat 32 o) v) (base + .ofNat 32 o') =
      loadN n' m (base + .ofNat 32 o') := by
  apply loadN_congr
  intro k hk
  rw [offset_add]
  exact storeN_of_le (le_toNat_offset_sub base ho (by omega) (by omega))

theorem loadN_fillN_of_disjoint (m : Mem) (base : Word) {p : ℕ} (f : ℕ → Byte)
    (ho : o + n ≤ 2 ^ 32) (hp : p + k ≤ 2 ^ 32) (hdis : o + n ≤ p ∨ p + k ≤ o) :
    loadN k (fillN n m (base + .ofNat 32 o) f) (base + .ofNat 32 p) =
      loadN k m (base + .ofNat 32 p) := by
  apply loadN_congr
  intro i hi
  rw [offset_add]
  exact fillN_of_le (le_toNat_offset_sub base ho (by omega) (by omega))

/-! ### The two widths the machine has -/

@[simp] theorem load32_store32_self (m : Mem) (a : Word) (v : Word) :
    load32 (store32 m a v) a = v :=
  loadN_storeN_self (n := 4) (by decide) m a v

theorem load32_store32_of_disjoint (m : Mem) (base : Word) (v : Word)
    (ho : o + 4 ≤ 2 ^ 32) (ho' : o' + 4 ≤ 2 ^ 32) (hdis : o + 4 ≤ o' ∨ o' + 4 ≤ o) :
    load32 (store32 m (base + .ofNat 32 o) v) (base + .ofNat 32 o') =
      load32 m (base + .ofNat 32 o') :=
  loadN_storeN_of_disjoint (n := 4) m base v ho ho' hdis

end LinuxRv.ByteMemory
