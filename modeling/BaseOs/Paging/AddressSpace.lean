import BaseOs.FdTable
import BaseOs.Paging.Screens

set_option autoImplicit false

/-! # What user code can reach

After `paging_init` the kernel changes its tables by three kinds of calls only: `add_process` for a slot,
and `map_virt_to_phys` of a terminal's screen page to video memory or to the terminal's backup.
`Mapping` is what all of them keep; `user_isolated` reads off it where every address of user code goes,
and that the kernel's own memory stays where it is. -/

namespace BaseOs

/-! ## The calls -/

/-- A call that changes the tables. -/
inductive MapCall
  /-- `add_process`. -/
  | addProcess (p : Fin 8)
  /-- `map_virt_to_phys` in `vidmap`, and in `terminal_switch` for the new terminal. -/
  | screen (t : Terminal)
  /-- `map_virt_to_phys` in `terminal_switch` for the old terminal. -/
  | backup (t : Terminal)

def MapCall.apply (lay : Layout) (pg : Paging) : MapCall → Paging
  | .addProcess p => BaseOs.addProcess pg (UInt32.ofNat p.val)
  | .screen t => mapVirtToPhys lay pg (virtVidTerm1 + t.val * fourKiB) userVideo
  | .backup t => mapVirtToPhys lay pg (virtVidTerm1 + t.val * fourKiB)
      (userBack1 + UInt32.ofNat (t.val * fourKiB))

/-- The process mapped after a call, given the one before it. -/
def MapCall.process (last : Option (Fin 8)) : MapCall → Option (Fin 8)
  | .addProcess p => some p
  | _ => last

/-! ## What they keep -/

/-- What a screen page can be mapped to: the backup, for the kernel or for programs, or the screen. -/
def ScreenEntry (t : Terminal) (entry : UInt32) : Prop :=
  entry = UInt32.ofNat (backupPage t) ||| rwPSet ∨
    entry = (userBack1 + UInt32.ofNat (t.val * fourKiB)) ||| rwPSet ∨ entry = userVideo ||| rwPSet

/-- The tables but for the program's page. Of the first 4 MB video memory is mapped. -/
structure KernelTables (lay : Layout) (pg : Paging) : Prop extends ScreenTables lay pg where
  kernel : pg.pageDirectory 1 = kernelMem ||| rwPSizeSet
  others : ∀ i < 1024, i ≠ 0 → i ≠ 1 → i ≠ processIdx → i ≠ screenIdx →
    pg.pageDirectory i = rwSetOnly
  lowest : ∀ i < 1024, i ≠ videoAddr / 2 ^ 12 → pg.pageTable i = rwSetOnly
  entries : ∀ t : Terminal, ScreenEntry t (pg.userPageTable t.val)
  unused : ∀ i < 1024, 3 ≤ i → pg.userPageTable i = 0

/-- The whole of the tables, with the process mapped last. -/
structure Mapping (lay : Layout) (last : Option (Fin 8)) (pg : Paging) : Prop
    extends KernelTables lay pg where
  program : pg.pageDirectory processIdx = (last.map processEntry).getD rwSetOnly

variable {lay : Layout} {pg : Paging} {last : Option (Fin 8)} {t : Terminal}

theorem mapVirtToPhys_unused (t : Terminal) (phys : UInt32) {i : Nat} (hi : 3 ≤ i) :
    (mapVirtToPhys lay pg (screenPage t) phys).userPageTable i = pg.userPageTable i := by
  have hne : i ≠ t.val := by omega
  unfold mapVirtToPhys
  simp only [screenPage_slot, Function.update_of_ne hne]

theorem KernelTables.addProcess (h : KernelTables lay pg) (p : UInt32) :
    KernelTables lay (addProcess pg p) where
  toScreenTables := h.toScreenTables.addProcess _
  kernel := (addProcess_of_ne (by decide)).trans h.kernel
  others i hi h0 h1 hp hs := (addProcess_of_ne hp).trans (h.others i hi h0 h1 hp hs)
  lowest := h.lowest
  entries := h.entries
  unused := h.unused

theorem Mapping.addProcess (h : Mapping lay last pg) (p : Fin 8) :
    Mapping lay (some p) (addProcess pg (UInt32.ofNat p.val)) where
  toKernelTables := h.toKernelTables.addProcess _
  program := addProcess_entry p

theorem KernelTables.mapVirtToPhys (h : KernelTables lay pg) {phys : UInt32}
    (hentry : ScreenEntry t (phys ||| rwPSet)) :
    KernelTables lay (mapVirtToPhys lay pg (screenPage t) phys) where
  toScreenTables := h.toScreenTables.mapVirtToPhys t phys
  kernel := (mapVirtToPhys_directory t phys (by decide)).trans h.kernel
  others i hi h0 h1 hp hs := (mapVirtToPhys_directory t phys hs).trans (h.others i hi h0 h1 hp hs)
  lowest := h.lowest
  entries u := by
    by_cases hu : u = t
    · rw [hu, mapVirtToPhys_screen]
      exact hentry
    · rw [mapVirtToPhys_other hu]
      exact h.entries u
  unused i hi h3 := (mapVirtToPhys_unused t phys h3).trans (h.unused i hi h3)

theorem Mapping.mapVirtToPhys (h : Mapping lay last pg) {phys : UInt32}
    (hentry : ScreenEntry t (phys ||| rwPSet)) :
    Mapping lay last (mapVirtToPhys lay pg (screenPage t) phys) where
  toKernelTables := h.toKernelTables.mapVirtToPhys hentry
  program := (mapVirtToPhys_directory t phys (by decide)).trans h.program

/-- What `vidmap` and `terminal_switch` map a screen page to. -/
theorem screenEntry_video (t : Terminal) : ScreenEntry t (userVideo ||| rwPSet) := Or.inr (Or.inr rfl)

theorem screenEntry_backup (t : Terminal) :
    ScreenEntry t ((userBack1 + UInt32.ofNat (t.val * fourKiB)) ||| rwPSet) := Or.inr (Or.inl rfl)

theorem Mapping.apply (h : Mapping lay last pg) (call : MapCall) :
    Mapping lay (call.process last) (call.apply lay pg) := by
  cases call with
  | addProcess p => exact h.addProcess p
  | screen t => exact h.mapVirtToPhys (screenEntry_video t)
  | backup t => exact h.mapVirtToPhys (screenEntry_backup t)

theorem Mapping.calls (h : Mapping lay last pg) (calls : List MapCall) :
    Mapping lay (calls.foldl MapCall.process last) (calls.foldl (MapCall.apply lay) pg) := by
  induction calls generalizing last pg with
  | nil => exact h
  | cons call calls ih => exact ih (h.apply call)

/-- `paging_init` on a machine whose `user_page_table` is zeroed. -/
theorem pagingInit_mapping (hzero : ∀ i < 1024, pg.userPageTable i = 0) :
    Mapping lay none (pagingInit lay pg) where
  toScreenTables := (pagingInit_displayOk lay pg).1
  kernel := rfl
  program := rfl
  others i hi h0 h1 _ hs := by
    refine (mapVirtToPhys_directory 2 _ hs).trans ((mapVirtToPhys_directory 1 _ hs).trans
      ((mapVirtToPhys_directory 0 _ hs).trans ?_))
    simp only
    rw [if_neg h1, if_neg h0, if_pos hi]
  lowest i hi hne := by
    change (if i = videoAddr / 2 ^ 12 then _ else if i < 1024 then rwSetOnly else _) = _
    rw [if_neg hne, if_pos hi]
  entries t := Or.inl ((pagingInit_displayOk lay pg).2 t)
  unused i hi h3 := (mapVirtToPhys_unused 2 _ h3).trans ((mapVirtToPhys_unused 1 _ h3).trans
    ((mapVirtToPhys_unused 0 _ h3).trans (hzero i hi)))

/-! ## Translations -/

/-- A screen page leads into the screen or a backup. -/
theorem ScreenEntry.range {entry : UInt32} (h : ScreenEntry t entry) :
    isPresent entry = true ∧ 0xB8000 ≤ entry.toNat / 4096 * 4096 ∧
      entry.toNat / 4096 * 4096 + 4096 ≤ 0xBC000 := by
  rcases h with rfl | rfl | rfl
  all_goals
    revert t
    decide

/-- User code needs the user bit and the present bit of the directory entry. -/
theorem userAddr_directory {va pa : Nat} (h : userAddr lay pg va = some pa) :
    isPresent (pg.pageDirectory (va / 2 ^ 22 % 1024)) = true ∧
      isUser (pg.pageDirectory (va / 2 ^ 22 % 1024)) = true := by
  unfold userAddr translate at h
  by_cases hp : isPresent (pg.pageDirectory (va / 2 ^ 22 % 1024)) = true
  · refine ⟨hp, ?_⟩
    by_contra hu
    have hfalse : isUser (pg.pageDirectory (va / 2 ^ 22 % 1024)) = false := by simpa using hu
    simp only [hp, if_true, hfalse, Bool.false_and] at h
    split at h
    · next tr htr =>
        have huser : tr.user = false := by
          split at htr
          · obtain rfl := Option.some.inj htr
            rfl
          · split at htr
            · cases htr
            · split_ifs at htr
              obtain rfl := Option.some.inj htr
              rfl
        rw [huser] at h
        cases h
    · cases h
  · simp only [hp] at h
    cases h

/-- The pages of `user_page_table` behind the terminals' are not mapped. -/
theorem KernelTables.screens_end (h : KernelTables lay pg) {va : Nat} (hdir : va / 2 ^ 22 % 1024 = screenIdx)
    (hslot : 3 ≤ va / 2 ^ 12 % 1024) : kernelAddr lay pg va = none := by
  obtain ⟨hpresent, hlarge, -, hbase⟩ :=
    directoryEntry_bits lay.userPageTable_aligned (Or.inr (show userMask.toNat = 7 from rfl))
  have hapart : ¬ lay.userPageTable.toNat = lay.pageTable.toNat := fun heq =>
    lay.apart (UInt32.toNat_inj.1 heq.symm)
  have hnone : isPresent 0 = false := rfl
  have hlt : va / 2 ^ 12 % 1024 < 1024 := Nat.mod_lt _ (by decide)
  unfold kernelAddr translate tableAt
  simp only [hdir, h.screens, hpresent, hlarge, hbase, if_true, Bool.false_eq_true, if_false, hapart,
    h.unused _ hlt hslot, hnone, Option.map_none]

/-- The pages of the terminals lead to the screen and its backups. -/
theorem KernelTables.screens_range (h : KernelTables lay pg) {va pa : Nat} (hva : va < 2 ^ 32)
    (hdir : va / 2 ^ 22 % 1024 = screenIdx) (hpa : kernelAddr lay pg va = some pa) :
    (0x10000000 ≤ va ∧ va < 0x10003000) ∧ 0xB8000 ≤ pa ∧ pa < 0xBC000 := by
  have hdir' : va / 2 ^ 22 % 1024 = 64 := hdir
  by_cases hslot : 3 ≤ va / 2 ^ 12 % 1024
  · rw [h.screens_end hdir hslot] at hpa
    cases hpa
  · obtain ⟨t, ht⟩ : ∃ t : Terminal, t.val = va / 2 ^ 12 % 1024 := ⟨⟨va / 2 ^ 12 % 1024, by omega⟩, rfl⟩
    have hpage : screenPage t = 0x10000000 + t.val * 4096 := rfl
    have hva' : va = screenPage t + va % 4096 := by omega
    obtain ⟨hpte, hlo, hhi⟩ := (h.entries t).range
    have hoff : va % 4096 < fourKiB := Nat.mod_lt va (by decide)
    have htrans := translate_screen h.toScreenTables t hoff hpte
    rw [← hva'] at htrans
    rw [kernelAddr, htrans] at hpa
    have heq := Option.some.inj hpa
    simp only at heq
    omega

/-- What user code may reach: the frame of the process mapped last, through the program page, and the
    screen and its backups, through the terminals' pages. -/
def UserReach (last : Option (Fin 8)) (va pa : Nat) : Prop :=
  (0x08000000 ≤ va ∧ va < 0x08400000 ∧ ∃ p, last = some p ∧
    pa = 0x00800000 + 0x400000 * p.val + (va - 0x08000000)) ∨
  (0x10000000 ≤ va ∧ va < 0x10003000 ∧ 0xB8000 ≤ pa ∧ pa < 0xBC000)

/-- The kernel's memory is not among it, and no frame but that one. -/
theorem UserReach.apart {va pa : Nat} (h : UserReach last va pa) :
    ¬ (0x400000 ≤ pa ∧ pa < 0x800000) ∧
      ∀ q : Fin 8, 0x00800000 + 0x400000 * q.val ≤ pa → pa < 0x00800000 + 0x400000 * (q.val + 1) →
        last = some q := by
  rcases h with ⟨hlow, hhigh, p, hlast, hpa⟩ | ⟨-, -, -, hlt⟩
  · refine ⟨by omega, fun q hlo hhi => ?_⟩
    obtain rfl : p = q := Fin.ext (by omega)
    exact hlast
  · exact ⟨by omega, fun q hlo hhi => by omega⟩

/-- Where user code's addresses go. -/
theorem Mapping.userAddr (h : Mapping lay last pg) {va pa : Nat} (hva : va < 2 ^ 32)
    (hu : userAddr lay pg va = some pa) :
    UserReach last va pa := by
  obtain ⟨hpresent, huser⟩ := userAddr_directory hu
  have hphys := kernelAddr_of_userAddr hu
  have habsent : isPresent rwSetOnly = false := rfl
  by_cases h0 : va / 2 ^ 22 % 1024 = 0
  · -- the first 4 MB are not for user code
    obtain ⟨-, -, hbit, -⟩ :=
      directoryEntry_bits lay.pageTable_aligned (Or.inl (show rwPSet.toNat = 3 from rfl))
    rw [h0, h.low] at huser
    exact absurd (hbit.1 huser) (by decide)
  by_cases h1 : va / 2 ^ 22 % 1024 = 1
  · -- nor is the kernel's page
    rw [h1, h.kernel] at huser
    exact absurd huser (by decide)
  by_cases hprog : va / 2 ^ 22 % 1024 = processIdx
  · left
    have hprog' : va / 2 ^ 22 % 1024 = 32 := hprog
    cases last with
    | none =>
        rw [hprog, h.program] at hpresent
        cases hpresent
    | some p =>
        have hrange : 0x08000000 ≤ va ∧ va < 0x08400000 := by omega
        rw [kernelAddr_program (i := p) h.program hrange.1 hrange.2] at hphys
        refine ⟨hrange.1, hrange.2, p, rfl, ?_⟩
        rw [← Option.some.inj hphys, Nat.mul_comm p.val]
  by_cases hscreen : va / 2 ^ 22 % 1024 = screenIdx
  · right
    obtain ⟨⟨hlo, hhi⟩, hpa⟩ := h.screens_range hva hscreen hphys
    exact ⟨hlo, hhi, hpa⟩
  · rw [h.others _ (Nat.mod_lt _ (by decide)) h0 h1 hprog hscreen, habsent] at hpresent
    cases hpresent

/-- The kernel finds its own 4 MB where they are. -/
theorem KernelTables.kernelAddr (h : KernelTables lay pg) {va : Nat} (hlo : 0x400000 ≤ va)
    (hhi : va < 0x800000) : kernelAddr lay pg va = some va := by
  have hbits : isPresent (kernelMem ||| rwPSizeSet) = true ∧ isLarge (kernelMem ||| rwPSizeSet) = true ∧
      (kernelMem ||| rwPSizeSet).toNat / 2 ^ 22 * 2 ^ 22 = 0x400000 := by decide
  have hdir : va / 2 ^ 22 % 1024 = 1 := by omega
  unfold BaseOs.kernelAddr translate
  simp only [hdir, h.kernel, hbits.1, hbits.2.1, hbits.2.2, if_true, Option.map_some]
  congr 1
  omega

/-- In the first 4 MB there is nothing but video memory. -/
theorem KernelTables.lowest_video (h : KernelTables lay pg) {va pa : Nat} (hdir : va / 2 ^ 22 % 1024 = 0)
    (hpa : BaseOs.kernelAddr lay pg va = some pa) : videoAddr ≤ pa ∧ pa < videoAddr + fourKiB := by
  obtain ⟨hpresent, hlarge, -, hbase⟩ :=
    directoryEntry_bits lay.pageTable_aligned (Or.inl (show rwPSet.toNat = 3 from rfl))
  have hnone : isPresent rwSetOnly = false := rfl
  have hvideo : isPresent (UInt32.ofNat videoAddr ||| rwPSet) = true ∧
      (UInt32.ofNat videoAddr ||| rwPSet).toNat / 4096 * 4096 = videoAddr := by decide
  have hlow : va % 4096 < fourKiB := Nat.mod_lt va (by decide)
  unfold BaseOs.kernelAddr translate tableAt at hpa
  simp only [hdir, h.low, hpresent, hlarge, hbase, if_true, Bool.false_eq_true, if_false] at hpa
  by_cases hslot : va / 2 ^ 12 % 1024 = videoAddr / 2 ^ 12
  · simp only [hslot, h.video, hvideo.1, hvideo.2, if_true, Option.map_some, Option.some.injEq] at hpa
    omega
  · simp only [h.lowest _ (Nat.mod_lt _ (by decide)) hslot, hnone, Bool.false_eq_true, if_false,
      Option.map_none] at hpa
    cases hpa

/-- Where the kernel's own addresses go: below the programs' memory, but for the program page. -/
theorem KernelTables.reach (h : KernelTables lay pg) {va pa : Nat} (hva : va < 2 ^ 32)
    (hpa : BaseOs.kernelAddr lay pg va = some pa) :
    pa < 0x800000 ∨ (0x08000000 ≤ va ∧ va < 0x08400000) := by
  by_cases h0 : va / 2 ^ 22 % 1024 = 0
  · have hvideo := (h.lowest_video h0 hpa).2
    unfold videoAddr fourKiB at hvideo
    omega
  by_cases h1 : va / 2 ^ 22 % 1024 = 1
  · have hself : BaseOs.kernelAddr lay pg va = some va := h.kernelAddr (by omega) (by omega)
    obtain rfl := Option.some.inj (hpa.symm.trans hself)
    omega
  by_cases hprog : va / 2 ^ 22 % 1024 = processIdx
  · have hprog' : va / 2 ^ 22 % 1024 = 32 := hprog
    omega
  by_cases hscreen : va / 2 ^ 22 % 1024 = screenIdx
  · have hrange := (h.screens_range hva hscreen hpa).2
    omega
  · rw [kernelAddr_absent (by rw [h.others _ (Nat.mod_lt _ (by decide)) h0 h1 hprog hscreen]; rfl)] at hpa
    cases hpa

/-- After `paging_init`, with `user_page_table` zeroed, and any calls: user code reaches what it may reach
    and nothing else, so neither the kernel's memory nor the frame of another process; and the kernel
    finds its own memory and the screen at their own addresses. -/
theorem user_isolated (lay : Layout) (pg : Paging) (hzero : ∀ i < 1024, pg.userPageTable i = 0)
    (calls : List MapCall) (va : Nat) (hva : va < 2 ^ 32) :
    (∀ pa, userAddr lay (calls.foldl (MapCall.apply lay) (pagingInit lay pg)) va = some pa →
      UserReach (calls.foldl MapCall.process none) va pa ∧
      ¬ (0x400000 ≤ pa ∧ pa < 0x800000) ∧
      ∀ q : Fin 8, 0x00800000 + 0x400000 * q.val ≤ pa → pa < 0x00800000 + 0x400000 * (q.val + 1) →
        calls.foldl MapCall.process none = some q) ∧
    ((0x400000 ≤ va ∧ va < 0x800000) ∨ (videoAddr ≤ va ∧ va < videoAddr + fourKiB) →
      kernelAddr lay (calls.foldl (MapCall.apply lay) (pagingInit lay pg)) va = some va) := by
  have hmap := (@pagingInit_mapping lay pg hzero).calls calls
  refine ⟨fun pa hu => ⟨hmap.userAddr hva hu, (hmap.userAddr hva hu).apart⟩, fun hkernel => ?_⟩
  rcases hkernel with ⟨hlo, hhi⟩ | ⟨hlo, hhi⟩
  · exact hmap.kernelAddr hlo hhi
  · have hoff : va - videoAddr < fourKiB := by omega
    have hvideo := translate_video hmap.toScreenTables hoff
    rwa [Nat.add_sub_cancel' hlo] at hvideo

/-- Process 3, mapped after process 0 and a visit to terminal 1: an address of its program. -/
theorem user_isolated_small :
    userAddr smallLayout ([.addProcess 0, .backup 0, .screen 1, .addProcess 3].foldl
        (MapCall.apply smallLayout) (pagingInit smallLayout ⟨fun _ => 0, fun _ => 0, fun _ => 0⟩)) 0x08048000
        = some 0x1448000 ∧
      UserReach ([.addProcess 0, .backup 0, .screen 1, .addProcess 3].foldl MapCall.process none)
        0x08048000 0x1448000 := by
  have hpa : userAddr smallLayout ([.addProcess 0, .backup 0, .screen 1, .addProcess 3].foldl
      (MapCall.apply smallLayout) (pagingInit smallLayout ⟨fun _ => 0, fun _ => 0, fun _ => 0⟩)) 0x08048000
      = some 0x1448000 := by decide
  exact ⟨hpa, ((user_isolated smallLayout _ (fun _ _ => rfl) _ _ (by decide)).1 _ hpa).1⟩

end BaseOs
