import LinuxRv.Mm.Ownership

/-!
Tasks with private memories: what processes should observe.

Every task has its own pages, `fork` copies all of them, and a store to a page
that is not there finds it full of zeros. Nothing is shared, so isolation needs
no argument here; the point of the copy-on-write system is that its outputs are
the outputs of this one.
-/

namespace LinuxRv.Mm

open ByteMemory Function BitVec Nat

/-! ### Addresses -/

abbrev PageNr := Fin userPgdEntries × Fin ptrsPerPage

abbrev PageBytes := Fin 4096 → Byte

/-- An address space: the pages that are mapped. -/
abbrev Space := PageNr → Option PageBytes

def pageOffset (a : Word) : ℕ := (a &&& 0xfff).toNat

/-- The low `n` bits masked out. -/
theorem toNat_and_high {a mask : Word} {n k : ℕ} (hn : n + k = 32)
    (hmask : mask.toNat = 2 ^ n * (2 ^ k - 1)) :
    (a &&& mask).toNat = 2 ^ n * (a.toNat / 2 ^ n) := by
  rw [toNat_and, hmask]
  apply eq_of_testBit_eq
  intro i
  rw [testBit_and, testBit_two_pow_mul, testBit_two_pow_sub_one,
    testBit_two_pow_mul, testBit_div_two_pow]
  by_cases hlow : n ≤ i
  · by_cases hhigh : i - n < k
    · simp [hlow, hhigh]
    · have hbit : a.toNat.testBit i = false :=
        testBit_lt_two_pow (lt_of_lt_of_le a.isLt (Nat.pow_le_pow_right (by decide) (by omega)))
      simp [hlow, hbit]
  · simp [hlow]

/-- The start of a page. -/
theorem toNat_page (a : Word) : (a &&& 0xfffff000).toNat = 4096 * (a.toNat / 4096) :=
  toNat_and_high (n := 12) (k := 20) rfl rfl

theorem pageOffset_eq (a : Word) : pageOffset a = a.toNat % 4096 := by
  rw [pageOffset, toNat_and]
  exact and_two_pow_sub_one_eq_mod a.toNat 12

theorem dirIndex_lt {a : Word} (h : a < userLimit) : dirIndex a < userPgdEntries := by
  have h' : a.toNat < 2 ^ 31 := lt_def.mp h
  rw [dirIndex, toNat_ushiftRight, shiftRight_eq_div_pow, userPgdEntries]
  omega

theorem tableIndex_lt (a : Word) : tableIndex a < ptrsPerPage := by
  rw [tableIndex, toNat_and]
  exact and_lt_two_pow _ (n := 10) (by decide)

def pageNr (a : Word) (h : a < userLimit) : PageNr :=
  (⟨dirIndex a, dirIndex_lt h⟩, ⟨tableIndex a, tableIndex_lt a⟩)

/-- A load or store: `len` bytes that do not cross a page boundary. -/
structure Access where
  address : Word
  len : ℕ
  fits : pageOffset address + len ≤ 4096

def PageBytes.ofBytes (bytes : ℕ → Byte) : PageBytes := fun o => bytes o

def PageBytes.read (p : PageBytes) (acc : Access) : List Byte :=
  List.ofFn fun k : Fin acc.len =>
    p ⟨pageOffset acc.address + k, by have := acc.fits; omega⟩

def PageBytes.write (p : PageBytes) (acc : Access) (bytes : ℕ → Byte) : PageBytes := fun o =>
  if pageOffset acc.address ≤ o ∧ o < pageOffset acc.address + acc.len then
    bytes (o - pageOffset acc.address)
  else p o

/-! ### Events and outputs -/

inductive Event
  /-- A task with an empty address space, as `execve` of a kernel thread makes it. -/
  | spawn
  /-- `execve` fills a page and maps it where nothing is mapped. -/
  | loadPage (nr : Fin nrTasks) (address : Word) (bytes : ℕ → Byte)
  | load (nr : Fin nrTasks) (acc : Access)
  | store (nr : Fin nrTasks) (acc : Access) (bytes : ℕ → Byte)
  | fork (nr : Fin nrTasks)
  | exit (nr : Fin nrTasks)
  /-- The parent has waited for the task, and its slot is free again. -/
  | release (nr : Fin nrTasks)
  /-- The kernel writes a task's structure and kernel stack. -/
  | kernelWrite (nr : Fin nrTasks) (bytes : ℕ → Byte)

inductive Output
  /-- There is no such task, or nothing to do. -/
  | ignored
  | done
  | bytes (l : List Byte)
  /-- The task took a fault the kernel ends it for. -/
  | killed
  | task (nr : Fin nrTasks)
  /-- `-EAGAIN`. -/
  | again
  /-- A store faulted again after its fault had been handled. -/
  | refaulted
  | panicked

/-- The second loop of `find_empty_process`; slot 0 is the initial task's. -/
def findEmptyProcess (taken : Fin nrTasks → Bool) : Option (Fin nrTasks) :=
  ((List.finRange nrTasks).drop 1).find? fun i => !taken i

/-! ### Private memories -/

@[ext] structure Private where
  taken : Fin nrTasks → Bool
  space : Fin nrTasks → Option Space

namespace Private

def initial : Private := ⟨fun _ => false, fun _ => none⟩

def setSpace (σ : Private) (nr : Fin nrTasks) (o : Option Space) : Private :=
  { σ with space := update σ.space nr o }

def add (σ : Private) (nr : Fin nrTasks) (m : Space) : Private :=
  ⟨update σ.taken nr true, update σ.space nr (some m)⟩

@[simp] theorem taken_setSpace (σ : Private) (nr : Fin nrTasks) (o : Option Space) :
    (σ.setSpace nr o).taken = σ.taken := rfl

@[simp] theorem space_setSpace (σ : Private) (nr : Fin nrTasks) (o : Option Space) :
    (σ.setSpace nr o).space = update σ.space nr o := rfl

@[simp] theorem taken_add (σ : Private) (nr : Fin nrTasks) (m : Space) :
    (σ.add nr m).taken = update σ.taken nr true := rfl

@[simp] theorem space_add (σ : Private) (nr : Fin nrTasks) (m : Space) :
    (σ.add nr m).space = update σ.space nr (some m) := rfl

def step (σ : Private) : Event → Output × Private
  | .spawn =>
    match findEmptyProcess σ.taken with
    | none => (.again, σ)
    | some nr => (.task nr, σ.add nr fun _ => none)
  | .loadPage nr address bytes =>
    match σ.space nr with
    | none => (.ignored, σ)
    | some m =>
      if h : address < userLimit then
        if m (pageNr address h) = none then
          (.done, σ.setSpace nr (some (update m (pageNr address h) (some (.ofBytes bytes)))))
        else (.ignored, σ)
      else (.ignored, σ)
  | .load nr acc =>
    match σ.space nr with
    | none => (.ignored, σ)
    | some m =>
      match if h : acc.address < userLimit then m (pageNr acc.address h) else none with
      | some p => (.bytes (p.read acc), σ)
      | none => (.killed, σ.setSpace nr none)
  | .store nr acc bytes =>
    match σ.space nr with
    | none => (.ignored, σ)
    | some m =>
      if h : acc.address < userLimit then
        (.done, σ.setSpace nr (some (update m (pageNr acc.address h)
          (some (((m (pageNr acc.address h)).getD fun _ => 0).write acc bytes)))))
      else (.killed, σ.setSpace nr none)
  | .fork nr =>
    match σ.space nr with
    | none => (.ignored, σ)
    | some m =>
      match findEmptyProcess σ.taken with
      | none => (.again, σ)
      | some child => (.task child, σ.add child m)
  | .exit nr =>
    match σ.space nr with
    | none => (.ignored, σ)
    | some _ => (.done, σ.setSpace nr none)
  | .release nr =>
    if σ.taken nr ∧ (σ.space nr).isNone then
      (.done, { σ with taken := update σ.taken nr false })
    else (.ignored, σ)
  | .kernelWrite _ _ => (.done, σ)

def outputs : List Event → Private → List Output
  | [], _ => []
  | e :: es, σ => (σ.step e).1 :: outputs es (σ.step e).2

end Private

end LinuxRv.Mm
