import LinuxRv.Mm.UserAccess

/-!
How the procedures of the memory manager stop: with one of its panics, or with
the `do_exit(11)` of a fault.
-/

namespace LinuxRv.Mm

open ByteMemory Prog

def panics : List String :=
  ["trying to free nonexistent page", "trying to free free page", "copy_page_tables: bad pgdir",
    "copy_page_tables: already exist", "verify_area: bad address"]

/-- `c` returns or stops with an `S`. -/
def Stops {α : Type} (S : Halt → Prop) (c : M α) : Prop :=
  Keeps (fun _ => True) (fun e _ => S e) c

section

variable {addr pgdir : Word} {n : ℕ} {S : Halt → Prop}

theorem stops_panic {α : Type} {m : String} (hS : ∀ m ∈ panics, S (.panic m))
    (hm : m ∈ panics) : Stops S (throw (.panic m) : M α) :=
  .throw fun _ _ => hS m hm

theorem stops_modify {f : State → State} : Stops S (modify f) := .modify fun _ h => h

theorem stops_readWord {p : Word} {i : ℕ} : Stops S (readWord p i) :=
  Keeps.get.bind fun _ => .pure _

theorem stops_readCount : Stops S (readCount n) := Keeps.get.bind fun _ => .pure _

theorem stops_getFreePage : Stops S getFreePage := by
  refine Keeps.get.bind fun s => ?_
  split
  · exact stops_modify.bind fun _ => Keeps.pure _
  · exact stops_modify.bind fun _ => (Keeps.forN fun i => stops_modify).bind fun _ => Keeps.pure _

theorem stops_freePage (hS : ∀ m ∈ panics, S (.panic m)) : Stops S (freePage addr) := by
  refine .ite (.pure _) (.ite (stops_panic hS (by decide)) ?_)
  exact stops_readCount.bind fun c => .ite (stops_panic hS (by decide)) stops_modify

theorem stops_putPagePgdir {page address : Word} : Stops S (putPagePgdir pgdir page address) := by
  refine .ite (.pure _) (.ite (.pure _) (stops_readWord.bind fun dir => ?_))
  refine .ite (stops_getFreePage.bind fun tmp => .ite (.pure _) ?_) ?_
  · exact stops_modify.bind fun _ => stops_modify.bind fun _ => .pure _
  · exact stops_modify.bind fun _ => .pure _

theorem stops_freePageTables (hS : ∀ m ∈ panics, S (.panic m)) :
    Stops S (freePageTables pgdir) := by
  refine .ite (.pure _) (.bind (.forN fun i => ?_) fun _ => stops_freePage hS)
  refine stops_readWord.bind fun dir => .ite (.pure _) (.bind ?_ fun _ =>
    (stops_freePage hS).bind fun _ => stops_modify)
  exact .forN fun j => stops_readWord.bind fun pte => .ite (.pure _) (stops_freePage hS)

theorem stops_shareLeaves {fromPt toPt : Word} : Stops S (shareLeaves fromPt toPt) := by
  refine .forN fun j => stops_readWord.bind fun pte => .ite (.pure _) ?_
  refine stops_modify.bind fun _ => stops_modify.bind fun _ => .ite ?_ (.pure _)
  exact stops_readCount.bind fun c => stops_modify

theorem stops_copyPageTables {fromPgdir toPgdir : Word} (hS : ∀ m ∈ panics, S (.panic m)) :
    Stops S (copyPageTables fromPgdir toPgdir) := by
  refine .ite (stops_panic hS (by decide)) (.bind (Keeps.forNRet fun i => ?_) fun _ => .pure _)
  refine stops_readWord.bind fun fromDir => .ite (.pure _) ?_
  refine stops_readWord.bind fun toDir => .ite (stops_panic hS (by decide)) ?_
  refine stops_getFreePage.bind fun newTable => .ite (.pure _) ?_
  exact stops_modify.bind fun _ => stops_shareLeaves.bind fun _ => .pure _

theorem stops_getFs (hexit : S (.exit 11)) : Stops S (getFs n pgdir addr) :=
  Keeps.get.bind fun _ => .ite (.throw fun _ _ => hexit) (.pure _)

theorem stops_putFs {v : BitVec (8 * n)} (hexit : S (.exit 11)) : Stops S (putFs n v pgdir addr) :=
  Keeps.get.bind fun _ => .ite (.throw fun _ _ => hexit) fun _ _ => wp_set.mpr trivial

theorem stops_unWpPage {t : Word} {j : ℕ} (hexit : S (.exit 11)) : Stops S (unWpPage t j) := by
  refine stops_readWord.bind fun pte => stops_readCount.bind fun c => .ite stops_modify
    (stops_getFreePage.bind fun newPage => .ite (.throw fun _ _ => hexit) ?_)
  have hcopy (q : Word) : Stops S (copyPage q newPage) :=
    .forN fun i => stops_readWord.bind fun v => stops_modify
  refine .ite (stops_readCount.bind fun c => stops_modify.bind fun _ => ?_) ?_
  · exact stops_modify.bind fun _ => hcopy _
  · exact stops_modify.bind fun _ => hcopy _

theorem stops_getEmptyPage {address : Word} (hS : ∀ m ∈ panics, S (.panic m))
    (hexit : S (.exit 11)) : Stops S (getEmptyPage pgdir address) := by
  refine stops_getFreePage.bind fun tmp => .ite ?_ ?_
  · exact (stops_freePage hS).bind fun _ => .throw fun _ _ => hexit
  · refine stops_putPagePgdir.bind fun r => .ite ?_ (.pure _)
    exact (stops_freePage hS).bind fun _ => .throw fun _ _ => hexit

theorem stops_verifyArea {size : Word} (hS : ∀ m ∈ panics, S (.panic m))
    (hexit : S (.exit 11)) : Stops S (verifyArea pgdir addr size) := by
  have hpages (n : ℕ) (start : Word) : Stops S (verifyPages pgdir n start) := by
    induction n generalizing start with
    | zero => exact .pure _
    | succ n ih =>
      refine .bind (.bind (.ite (.pure _) (stops_readWord.bind fun dir =>
        .ite (.pure _) (.pure _))) fun o => ?_) fun _ => ih _
      cases o with
      | none => exact stops_getEmptyPage hS hexit
      | some e =>
        exact stops_readWord.bind fun pte => .ite (stops_getEmptyPage hS hexit)
          (.ite (stops_unWpPage hexit) (.pure _))
  exact .ite (.pure _) (.ite (stops_panic hS (by decide)) (hpages _ _))

end

end LinuxRv.Mm
