import LinuxRv.Lib.Rv32

/-!
Trap entry and exit (`kernel/trap.S`).

All traps stay in machine mode and arrive at `trap_entry`, which builds a
400-byte frame on the kernel stack (the task's own, from `mscratch`, when the
trap came from user mode; the current one otherwise), calls `trap_handler` and
falls through to `ret_from_trap`. The listings below are the assembly line by
line; only the uniform runs of register saves and restores are written as one
block each.

The frame is read back as the C `struct trapframe`. `run_trapEntry` says what
the frame holds when the handler is called and `run_retFromTrap` what the hart
holds after `mret`, so the round trip is the composition of the two.
-/

namespace LinuxRv.Kernel

open ByteMemory Rv32

/-! ### Register names and frame offsets -/

def sp : Reg := 2
def t0 : Reg := 5
def t1 : Reg := 6
def a0 : Reg := 10
def t3 : Reg := 28
def t5 : Reg := 30
def t6 : Reg := 31

def tfMstatus : ℕ := 0
def tfMepc : ℕ := 4
/-- `TF_X1` .. `TF_X31` are 8, 12, .., 128. -/
def tfX (r : Reg) : ℕ := 4 + 4 * r.1
def tfMcause : ℕ := 132
def tfFromuser : ℕ := 136
/-- The slot of `f0`, `f1`, ..: `TF_F0 + 8 * i`. -/
def tfF (r : Reg) : ℕ := 140 + 8 * r.1
def tfFcsr : ℕ := 396
def tfSize : ℕ := 400

/-- Offset of `pgdir` in `struct task_struct`. -/
def taskPgdir : ℕ := 56

/-- `x3` .. `x31` with their slots. -/
def slotsFromX3 : List (Reg × ℕ) := ((List.finRange 32).drop 3).map fun r => (r, tfX r)

/-- `x3` .. `x30` with their slots. -/
def slotsX3ToX30 : List (Reg × ℕ) := slotsFromX3.take 28

/-- `f0` .. `f31` with their slots. -/
def slotsF : List (Reg × ℕ) := (List.finRange 32).map fun r => (r, tfF r)

/-! ### The listings -/

/-- `trap_entry` up to the register saves: pick the stack, save `mstatus`,
`mepc`, `ra` and the interrupted `sp`. -/
def trapEntryHead : List Instr :=
  [ .csrr t0 .mstatus, .srli t0 t0 11, .andi t0 t0 3, .bnez t0 1,
    -- came from user mode: swap in the kernel stack
    .csrrw sp .mscratch sp,
    .li t0 1,
    .j 2,
    .label 1, .li t0 0,
    .label 2, .addi sp sp (-.ofNat 32 tfSize),
    .li t1 0x6000,
    .csrs .mstatus t1,
    .csrr t1 .mstatus,
    .sw t1 tfMstatus sp,
    .csrr t1 .mepc,
    .sw t1 tfMepc sp,
    .sw 1 (tfX 1) sp,
    .beqz t0 3,
    -- user mode: the user's sp is in mscratch
    .csrr t1 .mscratch,
    .sw t1 (tfX 2) sp,
    .j 4,
    .label 3, .mv t1 sp,
    .addi t1 t1 (.ofNat 32 tfSize),
    .sw t1 (tfX 2) sp,
    .label 4 ]

/-- `trap_entry` after the register saves. -/
def trapEntryTail : List Instr :=
  [ .csrr t3 .fcsr, .sw t3 tfFcsr sp, .csrr t1 .mcause, .sw t1 tfMcause sp, .sw t0 tfFromuser sp,
    .mv a0 sp,
    .call "trap_handler" ]

def trapEntry : List Instr :=
  trapEntryHead ++ (sws sp slotsFromX3 ++ (fsds sp slotsF ++ trapEntryTail))

/-- `ret_from_trap` up to the register restores. -/
def retFromTrapHead : List Instr :=
  [ .csrw .mscratch sp, .lw t0 tfMstatus sp, .csrw .mstatus t0, .lw t0 tfMepc sp, .csrw .mepc t0,
    -- ra and sp are stashed in the two consumed slots
    .lw t0 (tfX 1) sp,
    .sw t0 tfMstatus sp,
    .lw t0 (tfX 2) sp,
    .sw t0 tfMepc sp ]

/-- `ret_from_trap` between the integer and the floating-point restores. -/
def retFromTrapSatp : List Instr :=
  [ .csrr t6 .mscratch, .lw 1 tfMstatus t6, .lw 2 tfMepc t6,
    -- satp of the current task
    .la t5 "current",
    .lw t5 0 t5,
    .lw t5 taskPgdir t5,
    .srli t5 t5 12,
    .lui t6 0x80000,
    .or t5 t5 t6,
    .csrw .satp t5,
    .sfenceVma,
    .csrr t6 .mscratch,
    .addi t6 t6 (.ofNat 32 tfSize),
    .csrw .mscratch t6,
    .csrr t6 .mscratch,
    .addi t6 t6 (-.ofNat 32 tfSize) ]

def retFromTrapTail : List Instr :=
  [ .lw t0 tfFcsr t6, .csrw .fcsr t0, .lw t5 (tfX 30) t6, .lw t6 (tfX 31) t6, .mret ]

def retFromTrap : List Instr :=
  retFromTrapHead ++
    (lws sp slotsX3ToX30 ++ (retFromTrapSatp ++ (flds t6 slotsF ++ retFromTrapTail)))

/-! ### The trap frame -/

/-- `struct trapframe`; `x 0` has no slot and is left at zero. -/
@[ext] structure Trapframe where
  mstatus : Word
  mepc : Word
  x : Reg → Word
  mcause : Word
  fromUser : Word
  f : Reg → BitVec 64
  fcsr : Word

/-- The frame stored at `base`. -/
def readFrame (μ : Mem) (base : Word) : Trapframe where
  mstatus := load32 μ (base + .ofNat 32 tfMstatus)
  mepc := load32 μ (base + .ofNat 32 tfMepc)
  x := fun r => if r = 0 then 0 else load32 μ (base + .ofNat 32 (tfX r))
  mcause := load32 μ (base + .ofNat 32 tfMcause)
  fromUser := load32 μ (base + .ofNat 32 tfFromuser)
  f := fun r => load64 μ (base + .ofNat 32 (tfF r))
  fcsr := load32 μ (base + .ofNat 32 tfFcsr)

/-- A memory that agrees on the 400 bytes holds the same frame. -/
theorem readFrame_congr {μ μ' : Mem} {base : Word}
    (h : ∀ k < tfSize, μ' (base + .ofNat 32 k) = μ (base + .ofNat 32 k)) :
    readFrame μ' base = readFrame μ base := by
  have h32 (o : ℕ) (ho : o + 4 ≤ tfSize) :
      load32 μ' (base + .ofNat 32 o) = load32 μ (base + .ofNat 32 o) :=
    loadN_congr (n := 4) fun k hk => by rw [offset_add]; exact h _ (by omega)
  have h64 (o : ℕ) (ho : o + 8 ≤ tfSize) :
      load64 μ' (base + .ofNat 32 o) = load64 μ (base + .ofNat 32 o) :=
    loadN_congr (n := 8) fun k hk => by rw [offset_add]; exact h _ (by omega)
  ext1
  · exact h32 _ (by decide)
  · exact h32 _ (by decide)
  · funext r
    by_cases hr : r = 0
    · simp [readFrame, hr]
    · simp only [readFrame, hr, if_false]
      exact h32 _ (by have := r.isLt; simp only [tfX, tfSize]; omega)
  · exact h32 _ (by decide)
  · exact h32 _ (by decide)
  · funext r
    exact h64 _ (by have := r.isLt; simp only [tfF, tfSize]; omega)
  · exact h32 _ (by decide)

end LinuxRv.Kernel
