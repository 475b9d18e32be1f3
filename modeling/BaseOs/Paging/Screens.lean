import BaseOs.Keyboard
import BaseOs.Paging.Proofs

set_option autoImplicit false

/-! # The screen pages

Each terminal has a page of its own in `user_page_table`. It is mapped either to video memory or to the
terminal's backup. `memcpy_pages` says what a copy between two mapped pages does. -/

namespace BaseOs

/-! ## Entries of tables -/

/-- Flags below an aligned address. -/
theorem toNat_or_flags {addr flags : UInt32} (haddr : addr.toNat % 4096 = 0)
    (hflags : flags.toNat < 4096) : (addr ||| flags).toNat = addr.toNat + flags.toNat := by
  have hdiv : addr.toNat = 2 ^ 12 * (addr.toNat / 2 ^ 12) := by omega
  rw [UInt32.toNat_or, hdiv, ← Nat.two_pow_add_eq_or_of_lt hflags]

/-- The virtual page of a terminal. -/
def screenPage (t : Terminal) : Nat := virtVidTerm1 + t.val * fourKiB

/-- The physical page that keeps a terminal's screen while another one is shown. -/
def backupPage (t : Terminal) : Nat := backupVid1 + t.val * fourKiB

/-- The directory entry of the terminals' screen pages. -/
def screenIdx : Nat := 64

theorem screenPage_idx (t : Terminal) : screenPage t / 2 ^ 22 = screenIdx := by
  revert t
  decide

theorem screenPage_slot (t : Terminal) : screenPage t % 2 ^ 22 / 2 ^ 12 = t.val := by
  revert t
  decide

variable {lay : Layout} {pg : Paging} {t u : Terminal}

theorem mapVirtToPhys_directory (t : Terminal) (phys : UInt32) {j : Nat} (hj : j ≠ screenIdx) :
    (mapVirtToPhys lay pg (screenPage t) phys).pageDirectory j = pg.pageDirectory j := by
  unfold mapVirtToPhys
  simp only [screenPage_idx]
  exact Function.update_of_ne hj _ _

@[simp]
theorem mapVirtToPhys_screen (t : Terminal) (phys : UInt32) :
    (mapVirtToPhys lay pg (screenPage t) phys).userPageTable t.val = phys ||| rwPSet := by
  unfold mapVirtToPhys
  simp only [screenPage_slot, Function.update_self]

theorem mapVirtToPhys_other (h : u ≠ t) (phys : UInt32) :
    (mapVirtToPhys lay pg (screenPage t) phys).userPageTable u.val = pg.userPageTable u.val := by
  have hne : u.val ≠ t.val := fun heq => h (Fin.ext heq)
  unfold mapVirtToPhys
  simp only [screenPage_slot, Function.update_of_ne hne]

/-! ## The tables that lead to the screens -/

/-- Video memory is where the processor puts it, and the screen pages are in `user_page_table`. -/
structure ScreenTables (lay : Layout) (pg : Paging) : Prop where
  low : pg.pageDirectory 0 = lay.pageTable ||| rwPSet
  video : pg.pageTable (videoAddr / 2 ^ 12) = UInt32.ofNat videoAddr ||| rwPSet
  screens : pg.pageDirectory screenIdx = lay.userPageTable ||| userMask

theorem ScreenTables.mapVirtToPhys (h : ScreenTables lay pg) (t : Terminal) (phys : UInt32) :
    ScreenTables lay (mapVirtToPhys lay pg (screenPage t) phys) where
  low := (mapVirtToPhys_directory t phys (by decide)).trans h.low
  video := h.video
  screens := by
    unfold BaseOs.mapVirtToPhys
    simp only [screenPage_idx, Function.update_self]

theorem ScreenTables.addProcess (h : ScreenTables lay pg) (p : UInt32) :
    ScreenTables lay (addProcess pg p) where
  low := (addProcess_of_ne (by decide)).trans h.low
  video := h.video
  screens := (addProcess_of_ne (by decide)).trans h.screens

/-- A directory entry that points at a page table with the given flags. -/
theorem directoryEntry_bits {table flags : UInt32} (htable : table.toNat % 4096 = 0)
    (hflags : flags.toNat = 3 ∨ flags.toNat = 7) :
    isPresent (table ||| flags) = true ∧ isLarge (table ||| flags) = false ∧
      (isUser (table ||| flags) = true ↔ flags.toNat = 7) ∧
      (table ||| flags).toNat / 4096 * 4096 = table.toNat := by
  have hsum := toNat_or_flags htable (show flags.toNat < 4096 by omega)
  unfold isPresent isLarge isUser
  simp only [hsum, beq_iff_eq, beq_eq_false_iff_ne, ne_eq]
  omega

theorem translate_video (h : ScreenTables lay pg) {off : Nat} (hoff : off < fourKiB) :
    kernelAddr lay pg (videoAddr + off) = some (videoAddr + off) := by
  have hoff' : off < 4096 := hoff
  obtain ⟨hpresent, hlarge, -, hbase⟩ :=
    directoryEntry_bits lay.pageTable_aligned (Or.inl (show rwPSet.toNat = 3 from rfl))
  have hdir : (videoAddr + off) / 2 ^ 22 % 1024 = 0 := by unfold videoAddr; omega
  have hslot : (videoAddr + off) / 2 ^ 12 % 1024 = videoAddr / 2 ^ 12 := by unfold videoAddr; omega
  have hlow : (videoAddr + off) % 4096 = off := by unfold videoAddr; omega
  have hentry : isPresent (UInt32.ofNat videoAddr ||| rwPSet) = true ∧
      (UInt32.ofNat videoAddr ||| rwPSet).toNat / 4096 * 4096 = videoAddr := by decide
  unfold kernelAddr translate tableAt
  simp only [hdir, h.low, hpresent, hlarge, hbase, if_true, Bool.false_eq_true, if_false, hslot,
    h.video, hentry.1, hentry.2, hlow, Option.map_some]

/-- A screen page goes where its table entry says. -/
theorem translate_screen (h : ScreenTables lay pg) (t : Terminal) {off : Nat} (hoff : off < fourKiB)
    (hpresent : isPresent (pg.userPageTable t.val) = true) :
    translate lay pg (screenPage t + off)
      = some ⟨(pg.userPageTable t.val).toNat / 4096 * 4096 + off, isUser (pg.userPageTable t.val)⟩ := by
  have hoff' : off < 4096 := hoff
  have ht : t.val < 3 := t.isLt
  obtain ⟨hdirPresent, hlarge, huser, hbase⟩ :=
    directoryEntry_bits lay.userPageTable_aligned (Or.inr (show userMask.toNat = 7 from rfl))
  have hpage : screenPage t = 0x10000000 + t.val * 4096 := rfl
  have hdir : (screenPage t + off) / 2 ^ 22 % 1024 = screenIdx := by
    unfold screenIdx
    omega
  have hslot : (screenPage t + off) / 2 ^ 12 % 1024 = t.val := by omega
  have hlow : (screenPage t + off) % 4096 = off := by omega
  have hapart : ¬ lay.userPageTable.toNat = lay.pageTable.toNat := fun heq =>
    lay.apart (UInt32.toNat_inj.1 heq.symm)
  unfold translate tableAt
  simp only [hdir, h.screens, hdirPresent, hlarge, hbase, if_true, Bool.false_eq_true, if_false,
    hapart, hslot, hpresent, hlow, huser.2 rfl, Bool.true_and]

/-- The terminal's page is mapped to its backup. -/
def BackedUp (pg : Paging) (t : Terminal) : Prop :=
  isPresent (pg.userPageTable t.val) = true ∧
    (pg.userPageTable t.val).toNat / 4096 * 4096 = backupPage t

/-- The terminal's page is mapped to video memory, also for programs. -/
def Shown (pg : Paging) (t : Terminal) : Prop := pg.userPageTable t.val = userVideo ||| rwPSet

theorem BackedUp.kernelAddr (h : ScreenTables lay pg) (hb : BackedUp pg t) {off : Nat}
    (hoff : off < fourKiB) : kernelAddr lay pg (screenPage t + off) = some (backupPage t + off) := by
  unfold BaseOs.kernelAddr
  rw [translate_screen h t hoff hb.1, hb.2]
  rfl

theorem Shown.translate (h : ScreenTables lay pg) (hs : Shown pg t) {off : Nat}
    (hoff : off < fourKiB) : translate lay pg (screenPage t + off) = some ⟨videoAddr + off, true⟩ := by
  have hbits : isPresent (userVideo ||| rwPSet) = true ∧ isUser (userVideo ||| rwPSet) = true ∧
      (userVideo ||| rwPSet).toNat / 4096 * 4096 = videoAddr := by decide
  unfold Shown at hs
  rw [translate_screen h t hoff (by rw [hs]; exact hbits.1), hs, hbits.2.1, hbits.2.2]

/-- The entries `paging_init` and `terminal_switch` write for a backup. -/
theorem backupEntry_bits (t : Terminal) :
    (isPresent (UInt32.ofNat (backupPage t) ||| rwPSet) = true ∧
      isUser (UInt32.ofNat (backupPage t) ||| rwPSet) = false ∧
      (UInt32.ofNat (backupPage t) ||| rwPSet).toNat / 4096 * 4096 = backupPage t) ∧
    (isPresent ((userBack1 + UInt32.ofNat (t.val * fourKiB)) ||| rwPSet) = true ∧
      ((userBack1 + UInt32.ofNat (t.val * fourKiB)) ||| rwPSet).toNat / 4096 * 4096
        = backupPage t) := by
  revert t
  decide

/-- After `paging_init` every screen page is mapped to its backup. -/
theorem pagingInit_displayOk (lay : Layout) (pg : Paging) :
    ScreenTables lay (pagingInit lay pg) ∧
      ∀ t : Terminal, (pagingInit lay pg).userPageTable t.val
        = UInt32.ofNat (backupPage t) ||| rwPSet := by
  refine ⟨⟨rfl, rfl, rfl⟩, fun t => ?_⟩
  fin_cases t <;> rfl

/-! ## Copies between pages -/

/-- Memory after `n` bytes were copied from `src` to `dst`. -/
def copied (dst src n : Nat) (mem : Bytes) : Bytes :=
  fun a => if dst ≤ a ∧ a < dst + n then mem (src + (a - dst)) else mem a

theorem copied_at {dst src n off : Nat} (mem : Bytes) (hoff : off < n) :
    copied dst src n mem (dst + off) = mem (src + off) := by
  unfold copied
  rw [if_pos (by omega), Nat.add_sub_cancel_left]

theorem copied_out {dst src n a : Nat} (mem : Bytes) (hout : a < dst ∨ dst + n ≤ a) :
    copied dst src n mem a = mem a := by
  unfold copied
  rw [if_neg (by omega)]

/-- `memcpy` between two ranges that are mapped one to one and do not overlap. -/
theorem memcpy_range {addr : Nat → Option Nat} (n : Nat) {dst src pd ps : Nat} {mem : Bytes}
    (hdst : ∀ j < n, addr ((dst + j) % 2 ^ 32) = some (pd + j))
    (hsrc : ∀ j < n, addr ((src + j) % 2 ^ 32) = some (ps + j)) (hapart : pd + n ≤ ps ∨ ps + n ≤ pd) :
    memcpy addr dst src n mem = some (copied pd ps n mem) := by
  unfold copied
  induction n generalizing dst src pd ps mem with
  | zero =>
      rw [memcpy]
      congr 1
      funext a
      rw [if_neg (by omega)]
  | succ n ih =>
      have hd0 := hdst 0 (by omega)
      have hs0 := hsrc 0 (by omega)
      simp only [Nat.add_zero] at hd0 hs0
      rw [memcpy, hs0, hd0]
      simp only
      rw [@ih (dst + 1) (src + 1) (pd + 1) (ps + 1)]
      · congr 1
        funext a
        by_cases ha : a = pd
        · subst ha
          rw [if_neg (by omega), if_pos (by omega), Function.update_self, Nat.sub_self, Nat.add_zero]
        · by_cases hin : pd + 1 ≤ a ∧ a < pd + 1 + n
          · rw [if_pos hin, if_pos (by omega), Function.update_of_ne (by omega)]
            congr 1
            omega
          · rw [if_neg hin, if_neg (by omega), Function.update_of_ne ha]
      · intro j hj
        have := hdst (j + 1) (by omega)
        rwa [show dst + 1 + j = dst + (j + 1) by omega, show pd + 1 + j = pd + (j + 1) by omega]
      · intro j hj
        have := hsrc (j + 1) (by omega)
        rwa [show src + 1 + j = src + (j + 1) by omega, show ps + 1 + j = ps + (j + 1) by omega]
      · omega

/-! ## The copies of a switch -/

theorem video_below_backup (t : Terminal) : videoAddr + fourKiB ≤ backupPage t := by
  unfold backupPage backupVid1 videoAddr fourKiB
  omega

theorem ScreenTables.video_range (h : ScreenTables lay pg) :
    ∀ j < fourKiB, kernelAddr lay pg ((videoAddr + j) % 2 ^ 32) = some (videoAddr + j) := by
  intro j hj
  rw [Nat.mod_eq_of_lt (by unfold videoAddr; unfold fourKiB at hj; omega)]
  exact translate_video h hj

theorem BackedUp.page_range (h : ScreenTables lay pg) (hb : BackedUp pg t) :
    ∀ j < fourKiB, BaseOs.kernelAddr lay pg ((screenPage t + j) % 2 ^ 32) = some (backupPage t + j) := by
  intro j hj
  have ht : t.val < 3 := t.isLt
  rw [Nat.mod_eq_of_lt (by unfold screenPage virtVidTerm1; unfold fourKiB at *; omega)]
  exact hb.kernelAddr h hj

/-- The screen is copied to the backup of a terminal whose page is mapped there. -/
theorem BackedUp.memcpy_save (h : ScreenTables lay pg) (hb : BackedUp pg t) (mem : Bytes) :
    memcpy (BaseOs.kernelAddr lay pg) (screenPage t) videoAddr fourKiB mem
      = some (copied (backupPage t) videoAddr fourKiB mem) :=
  memcpy_range fourKiB (hb.page_range h) h.video_range (Or.inr (video_below_backup t))

/-- The backup of a terminal is copied to the screen. -/
theorem BackedUp.memcpy_fetch (h : ScreenTables lay pg) (hb : BackedUp pg t) (mem : Bytes) :
    memcpy (BaseOs.kernelAddr lay pg) videoAddr (screenPage t) fourKiB mem
      = some (copied videoAddr (backupPage t) fourKiB mem) :=
  memcpy_range fourKiB h.video_range (hb.page_range h) (Or.inl (video_below_backup t))

end BaseOs
