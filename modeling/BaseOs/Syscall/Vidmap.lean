import BaseOs.Process.Table
import BaseOs.System.Stable

set_option autoImplicit false

/-! # `vidmap` and the address space

The test of the pointer looks at its first byte only, and the address stored through it has four. Past the
program page nothing is mapped, so for the last three addresses of the page the kernel itself faults
(`vidmap_iff`). Apart from that a call changes what it should: four bytes of the program and one page. -/

namespace BaseOs

open Kernel

/-! ## The tables while programs run -/

/-- The page tables from the first program on: besides the kernel's pages and the terminals' there is one
    large page, for some process. -/
structure ProgramTables (lay : Layout) (pg : Paging) : Prop extends ScreenTables lay pg where
  kernel : pg.pageDirectory 1 = kernelMem ||| rwPSizeSet
  program : ∃ processId, pg.pageDirectory processIdx
    = (userSpace + processId * processSize4M) ||| processSet
  others : ∀ i < 1024, i ≠ 0 → i ≠ 1 → i ≠ processIdx → i ≠ screenIdx →
    pg.pageDirectory i = rwSetOnly

variable {cfg : Config} {lay : Layout} {pg pg' : Paging} {k k0 k' machine : Kernel} {loc : Locals}

theorem addProcess_program (pg : Paging) (processId : UInt32) :
    (addProcess pg processId).pageDirectory processIdx
      = (userSpace + processId * processSize4M) ||| processSet := by
  simp only [addProcess, Function.update_self]

theorem ProgramTables.addProcess (h : ProgramTables lay pg) (processId : UInt32) :
    ProgramTables lay (addProcess pg processId) where
  toScreenTables := h.toScreenTables.addProcess processId
  kernel := (addProcess_of_ne (by decide)).trans h.kernel
  program := ⟨processId, addProcess_program pg processId⟩
  others i hi h0 h1 hp hs := (addProcess_of_ne hp).trans (h.others i hi h0 h1 hp hs)

theorem ProgramTables.mapVirtToPhys (h : ProgramTables lay pg) (t : Terminal) (phys : UInt32) :
    ProgramTables lay (mapVirtToPhys lay pg (screenPage t) phys) where
  toScreenTables := h.toScreenTables.mapVirtToPhys t phys
  kernel := (mapVirtToPhys_directory t phys (by decide)).trans h.kernel
  program := by
    obtain ⟨processId, hentry⟩ := h.program
    exact ⟨processId, (mapVirtToPhys_directory t phys (by decide)).trans hentry⟩
  others i hi h0 h1 hp hs := (mapVirtToPhys_directory t phys hs).trans (h.others i hi h0 h1 hp hs)

theorem programTables_stable (cfg : Config) :
    Stable cfg fun k => ProgramTables cfg.lay k.paging where
  same hk hpaging _ _ := by rwa [hpaging]
  program _ processId hk := hk.addProcess processId
  screen _ t phys _ hk := hk.mapVirtToPhys t phys
  descriptors _ _ _ _ hk := hk
  created k i hk := by
    have hpaging : (setUp k i).paging = k.paging := rfl
    rwa [hpaging]

/-- The first shell has been mapped when boot is over. -/
theorem boot_programTables {entryPoint : UInt32} (hboot : boot cfg machine loc = .started k0 entryPoint) :
    ProgramTables cfg.lay k0.paging := by
  obtain ⟨i, -, hst⟩ := execute_started hboot
  rw [hst.paging]
  refine ⟨(pagingInit_displayOk cfg.lay machine.paging).1.addProcess _, rfl,
    ⟨_, addProcess_program _ _⟩, fun j hj h0 h1 hp hs => (addProcess_of_ne hp).trans ?_⟩
  refine (mapVirtToPhys_directory 2 _ hs).trans ((mapVirtToPhys_directory 1 _ hs).trans
    ((mapVirtToPhys_directory 0 _ hs).trans ?_))
  simp only
  rw [if_neg h1, if_neg h0, if_pos hj]

/-! ## The program page -/

/-- A flag that is set in a mask is set in an entry with that mask. -/
theorem flag_or (addr : UInt32) {flags : UInt32} {i : Nat} (h : flags.toNat.testBit i = true) :
    (addr ||| flags).toNat / 2 ^ i % 2 = 1 := by
  have hbit : (addr ||| flags).toNat.testBit i = true := by
    rw [UInt32.toNat_or, Nat.testBit_or, h, Bool.or_true]
  rwa [Nat.testBit_eq_decide_div_mod_eq, decide_eq_true_eq] at hbit

theorem programEntry_bits (frame : UInt32) :
    isPresent (frame ||| processSet) = true ∧ isUser (frame ||| processSet) = true ∧
      isLarge (frame ||| processSet) = true := by
  have hbits : processSet.toNat.testBit 0 = true ∧ processSet.toNat.testBit 2 = true ∧
      processSet.toNat.testBit 7 = true := by decide
  have hpresent := flag_or frame hbits.1
  rw [Nat.pow_zero, Nat.div_one] at hpresent
  exact ⟨beq_iff_eq.2 hpresent, beq_iff_eq.2 (flag_or frame hbits.2.1),
    beq_iff_eq.2 (flag_or frame hbits.2.2)⟩

/-- The program page is one large page for user code, wherever its process is. -/
theorem ProgramTables.userAddr (h : ProgramTables lay pg) :
    ∃ frame, ∀ off < 2 ^ 22, userAddr lay pg (programPage + off) = some (frame + off) := by
  obtain ⟨processId, hentry⟩ := h.program
  obtain ⟨hpresent, huser, hlarge⟩ := programEntry_bits (userSpace + processId * processSize4M)
  refine ⟨((userSpace + processId * processSize4M) ||| processSet).toNat / 2 ^ 22 * 2 ^ 22, fun off hoff => ?_⟩
  have hdir : (programPage + off) / 2 ^ 22 % 1024 = processIdx := by
    unfold programPage processIdx
    omega
  have hlow : (programPage + off) % 2 ^ 22 = off := by
    unfold programPage
    omega
  unfold BaseOs.userAddr translate
  simp only [hdir, hentry, hpresent, hlarge, huser, hlow, if_true]

/-- Past the program page nothing is mapped. -/
theorem ProgramTables.past (h : ProgramTables lay pg) :
    kernelAddr lay pg (programPage + userPageSize) = none := by
  refine kernelAddr_absent ?_
  have hdir : (programPage + userPageSize) / 2 ^ 22 % 1024 = aboveProgram := by decide
  rw [hdir, h.others aboveProgram (by decide) (by decide) (by decide) (by decide) (by decide)]
  rfl

/-! ## The pages that stay -/

/-- A translation reads one directory entry, and one entry of the table that one points at. -/
theorem translate_congr {va : Nat}
    (hdir : pg'.pageDirectory (va / 2 ^ 22 % 1024) = pg.pageDirectory (va / 2 ^ 22 % 1024))
    (htable : isPresent (pg.pageDirectory (va / 2 ^ 22 % 1024)) = true →
      isLarge (pg.pageDirectory (va / 2 ^ 22 % 1024)) = false →
        (tableAt lay pg' (pg.pageDirectory (va / 2 ^ 22 % 1024))).map (· (va / 2 ^ 12 % 1024))
          = (tableAt lay pg (pg.pageDirectory (va / 2 ^ 22 % 1024))).map (· (va / 2 ^ 12 % 1024))) :
    translate lay pg' va = translate lay pg va := by
  unfold translate
  simp only [hdir]
  by_cases hpresent : isPresent (pg.pageDirectory (va / 2 ^ 22 % 1024)) = true
  · rw [if_pos hpresent, if_pos hpresent]
    by_cases hlarge : isLarge (pg.pageDirectory (va / 2 ^ 22 % 1024)) = true
    · rw [if_pos hlarge, if_pos hlarge]
    · rw [if_neg hlarge, if_neg hlarge]
      have hentry := htable hpresent (by simpa using hlarge)
      revert hentry
      cases tableAt lay pg' (pg.pageDirectory (va / 2 ^ 22 % 1024)) with
      | none =>
          cases tableAt lay pg (pg.pageDirectory (va / 2 ^ 22 % 1024)) with
          | none => exact fun _ => rfl
          | some table => exact fun h => by cases h
      | some table' =>
          cases tableAt lay pg (pg.pageDirectory (va / 2 ^ 22 % 1024)) with
          | none => exact fun h => by cases h
          | some table =>
              intro h
              have hslot : table' (va / 2 ^ 12 % 1024) = table (va / 2 ^ 12 % 1024) := Option.some.inj h
              simp only [hslot]
  · rw [if_neg hpresent, if_neg hpresent]

/-- Mapping a screen page moves no other page. -/
theorem ProgramTables.translate_other (h : ProgramTables lay pg) (t : Terminal) (phys : UInt32)
    {va : Nat} (hva : va < 2 ^ 32) (hpage : va / 4096 ≠ screenPage t / 4096) :
    translate lay (BaseOs.mapVirtToPhys lay pg (screenPage t) phys) va = translate lay pg va := by
  have hlt : va / 2 ^ 22 % 1024 < 1024 := Nat.mod_lt _ (by decide)
  by_cases hs : va / 2 ^ 22 % 1024 = screenIdx
  · have ht : t.val < 3 := t.isLt
    have hslot : va / 2 ^ 12 % 1024 ≠ t.val := by
      have hidx : screenPage t / 4096 = 0x10000 + t.val := by
        unfold screenPage virtVidTerm1 fourKiB
        omega
      unfold screenIdx at hs
      omega
    have hdir : (BaseOs.mapVirtToPhys lay pg (screenPage t) phys).pageDirectory screenIdx
        = pg.pageDirectory screenIdx := by
      rw [(h.toScreenTables.mapVirtToPhys t phys).screens, h.screens]
    refine translate_congr (by rw [hs, hdir]) fun _ _ => ?_
    unfold tableAt BaseOs.mapVirtToPhys
    simp only [screenPage_slot]
    split_ifs
    · rfl
    · simp only [Option.map_some, Function.update_of_ne hslot]
    · rfl
  · have hdir := @mapVirtToPhys_directory lay pg t phys _ hs
    refine translate_congr hdir fun hpresent hlarge => ?_
    -- a present entry that is not large leads to the kernel's own page table
    have hzero : va / 2 ^ 22 % 1024 = 0 := by
      by_contra h0
      by_cases h1 : va / 2 ^ 22 % 1024 = 1
      · rw [h1, h.kernel] at hlarge
        cases hlarge
      by_cases hp : va / 2 ^ 22 % 1024 = processIdx
      · obtain ⟨processId, hentry⟩ := h.program
        rw [hp, hentry, (programEntry_bits _).2.2] at hlarge
        cases hlarge
      · rw [h.others _ hlt h0 h1 hp hs] at hpresent
        cases hpresent
    obtain ⟨-, -, -, hbase⟩ :=
      directoryEntry_bits lay.pageTable_aligned (Or.inl (show rwPSet.toNat = 3 from rfl))
    rw [hzero, h.low]
    unfold tableAt
    rw [hbase, if_pos rfl, if_pos rfl]
    rfl

/-! ## The call -/

/-- The four bytes from `p` on are inside the program page. -/
def InProgramPage (p : UInt32) : Prop :=
  programPage ≤ p.toNat ∧ p.toNat + 4 ≤ programPage + userPageSize

/-- What a successful call does, with `k'` the state after it: the caller finds the address of its page
    at `p`, the page shows the screen, and nothing else has changed. -/
structure ScreenGiven (cfg : Config) (k : Kernel) (p : UInt32) (k' : Kernel) : Prop where
  stored : ∃ pa, (∀ j < 4, userAddr cfg.lay k.paging (p.toNat + j) = some (pa + j)) ∧
    word32 (fun j => k'.mem (pa + j)) = UInt32.ofNat (screenPage k.currTerminal) ∧
    ∀ a, a < pa ∨ pa + 4 ≤ a → k'.mem a = k.mem a
  page : ∀ off < fourKiB,
    translate cfg.lay k'.paging (screenPage k.currTerminal + off) = some ⟨videoAddr + off, true⟩
  others : ∀ va < 2 ^ 32, va / 4096 ≠ screenPage k.currTerminal / 4096 →
    translate cfg.lay k'.paging va = translate cfg.lay k.paging va
  rest : k' = { k with mem := k'.mem, paging := k'.paging }

/-- The call refuses the pointers it has to refuse and no others, and does what it should for these. -/
structure VidmapRight (cfg : Config) (k : Kernel) (p : UInt32) : Prop where
  refused : (∃ message, vidmap cfg k p.toNat = some (k.printf message, -1)) ↔ ¬ InProgramPage p
  mapped : InProgramPage p → ∃ k', vidmap cfg k p.toNat = some (k', toRet (screenPage k.currTerminal)) ∧
    ScreenGiven cfg k p k'

theorem toRet_screenPage (t : Terminal) : toRet (screenPage t) ≠ -1 := by
  revert t
  decide

/-- The bytes stored are the address, lowest first. -/
theorem word32_screenPage {buf : Bytes} (t : Terminal)
    (h : ∀ j (hj : j < (wordBytes (screenPage t)).length), buf j = (wordBytes (screenPage t))[j]) :
    word32 buf = UInt32.ofNat (screenPage t) := by
  have h0 := h 0 (by decide : 0 < 4)
  have h1 := h 1 (by decide : 1 < 4)
  have h2 := h 2 (by decide : 2 < 4)
  have h3 := h 3 (by decide : 3 < 4)
  unfold word32
  simp only [List.range_succ, List.range_zero, List.nil_append, List.cons_append, List.foldl_cons,
    List.foldl_nil, h0, h1, h2, h3]
  clear h h0 h1 h2 h3
  revert t
  decide

/-- The stores reach four bytes one after the other in the program's frame. -/
theorem ProgramTables.word (h : ProgramTables lay pg) {p : UInt32} (hp : InProgramPage p) :
    ∃ pa, ∀ j < 4, BaseOs.userAddr lay pg (p.toNat + j) = some (pa + j) := by
  obtain ⟨hlo, hhi⟩ := hp
  obtain ⟨frame, hframe⟩ := h.userAddr
  have hsize : userPageSize = 2 ^ 22 := rfl
  refine ⟨frame + (p.toNat - programPage), fun j hj => ?_⟩
  have hj := hframe (p.toNat - programPage + j) (by omega)
  rwa [← Nat.add_assoc, Nat.add_sub_cancel' hlo, ← Nat.add_assoc] at hj

/-- A pointer that passes the test. -/
theorem vidmap_tested {p : UInt32} (hlo : programPage ≤ p.toNat)
    (hhi : p.toNat < programPage + userPageSize) {mem' : Bytes} {fault : Bool}
    (hstore : storeVirt (kernelAddr cfg.lay k.paging) p.toNat (wordBytes (screenPage k.currTerminal)) k.mem
      = (mem', fault)) :
    vidmap cfg k p.toNat = if fault then none else
      some ({ k with
        mem := mem', paging := mapVirtToPhys cfg.lay k.paging (screenPage k.currTerminal) userVideo },
        toRet (screenPage k.currTerminal)) := by
  have hlow : programPage = 0x08000000 := rfl
  unfold screenPage at hstore ⊢
  unfold vidmap
  simp only
  rw [if_neg (by omega), if_neg (by omega), hstore]

/-- A pointer inside the page gets its terminal's page. -/
theorem vidmap_inside (h : ProgramTables cfg.lay k.paging) {p : UInt32} (hp : InProgramPage p) :
    ∃ k', vidmap cfg k p.toNat = some (k', toRet (screenPage k.currTerminal)) ∧ ScreenGiven cfg k p k' := by
  obtain ⟨pa, hpa⟩ := h.word hp
  obtain ⟨hlo, hhi⟩ := hp
  have hlow : programPage = 0x08000000 := rfl
  have hsize : userPageSize = 0x00400000 := rfl
  have hmap : ∀ j < (wordBytes (screenPage k.currTerminal)).length,
      kernelAddr cfg.lay k.paging ((p.toNat + j) % 2 ^ 32) = some (pa + j) := by
    intro j hj
    have hj4 : j < 4 := hj
    rw [Nat.mod_eq_of_lt (by omega)]
    exact kernelAddr_of_userAddr (hpa j hj4)
  obtain ⟨⟨mem', fault⟩, hstore⟩ : ∃ r, storeVirt (kernelAddr cfg.lay k.paging) p.toNat
      (wordBytes (screenPage k.currTerminal)) k.mem = r := ⟨_, rfl⟩
  have hfault : fault = false := by
    have hnone := @storeVirt_noFault (kernelAddr cfg.lay k.paging) _ p.toNat k.mem fun j hj =>
      Option.isSome_iff_exists.2 ⟨_, hmap j hj⟩
    rwa [hstore] at hnone
  subst hfault
  have hcall := vidmap_tested hlo (by omega) hstore
  rw [if_neg (by decide)] at hcall
  refine ⟨_, hcall, ⟨pa, hpa, ?_, fun a ha => ?_⟩, fun off hoff => ?_, fun va hva hpage => ?_, rfl⟩
  · exact word32_screenPage k.currTerminal (storeVirt_get hstore hmap)
  · refine storeVirt_frame hstore fun j hj => ?_
    have hj4 : j < 4 := hj
    rw [hmap j hj, ne_eq, Option.some.injEq]
    omega
  · exact Shown.translate (h.toScreenTables.mapVirtToPhys _ _) (mapVirtToPhys_screen _ _) hoff
  · exact h.translate_other _ _ hva hpage

/-- At the last three addresses of the page the kernel faults. -/
theorem vidmap_end (h : ProgramTables cfg.lay k.paging) {p : UInt32} (hlo : programPage ≤ p.toNat)
    (hhi : p.toNat < programPage + userPageSize) (hp : ¬ InProgramPage p) :
    vidmap cfg k p.toNat = none := by
  have hlow : programPage = 0x08000000 := rfl
  have hsize : userPageSize = 0x00400000 := rfl
  have hpast : programPage + userPageSize < p.toNat + 4 := by
    by_contra hle
    exact hp ⟨hlo, by omega⟩
  obtain ⟨⟨mem', fault⟩, hstore⟩ : ∃ r, storeVirt (kernelAddr cfg.lay k.paging) p.toNat
      (wordBytes (screenPage k.currTerminal)) k.mem = r := ⟨_, rfl⟩
  have hfault : fault = true := by
    by_contra hnot
    have hfalse : fault = false := by simpa using hnot
    subst hfalse
    have hmapped := storeVirt_mapped hstore (programPage + userPageSize - p.toNat)
      (by change _ < 4; omega)
    rw [Nat.add_sub_cancel' (by omega), Nat.mod_eq_of_lt (by omega), h.past] at hmapped
    cases hmapped
  rw [vidmap_tested hlo hhi hstore, if_pos hfault]

/-- A pointer before or after the page is refused. -/
theorem vidmap_outside {p : UInt32}
    (hp : p.toNat < programPage ∨ programPage + userPageSize ≤ p.toNat) :
    ∃ message, vidmap cfg k p.toNat = some (k.printf message, -1) := by
  unfold vidmap
  split_ifs
  · exact ⟨_, rfl⟩
  · exact ⟨_, rfl⟩

/-- There the call does not come back to refuse the pointer. -/
theorem vidmap_not_refused (h : ProgramTables cfg.lay k.paging) {p : UInt32}
    (hlo : programPage ≤ p.toNat) (hhi : p.toNat < programPage + userPageSize)
    (hp : ¬ InProgramPage p) : ¬ VidmapRight cfg k p := by
  intro hright
  obtain ⟨message, hcall⟩ := hright.refused.2 hp
  rw [vidmap_end h hlo hhi hp] at hcall
  cases hcall

/-- In every state after boot `vidmap` does what it should for every pointer but the last three of the
    program page. -/
theorem vidmap_iff {entryPoint : UInt32} {ops : List Op}
    (hboot : boot cfg machine loc = .started k0 entryPoint)
    (hrun : Runs.run (Kernel.next cfg) k0 ops = some k) (p : UInt32) :
    VidmapRight cfg k p ↔ ¬ (0x083FFFFC < p ∧ p < 0x08400000) := by
  have h : ProgramTables cfg.lay k.paging :=
    (programTables_stable cfg).run hrun (boot_programTables hboot)
  have hlow : programPage = 0x08000000 := rfl
  have hsize : userPageSize = 0x00400000 := rfl
  have hend : (0x083FFFFC < p ∧ p < 0x08400000) ↔ 0x083FFFFC < p.toNat ∧ p.toNat < 0x08400000 := Iff.rfl
  rw [hend]
  by_cases hin : InProgramPage p
  · obtain ⟨k', hcall, hgiven⟩ := @vidmap_inside cfg k h p hin
    refine iff_of_true ⟨iff_of_false ?_ (not_not.2 hin), fun _ => ⟨k', hcall, hgiven⟩⟩ ?_
    · rintro ⟨message, hrefused⟩
      rw [hcall, Option.some.injEq, Prod.mk.injEq] at hrefused
      exact toRet_screenPage _ hrefused.2
    · have := hin.2
      omega
  · by_cases hpage : programPage ≤ p.toNat ∧ p.toNat < programPage + userPageSize
    · have hpast : ¬ p.toNat + 4 ≤ programPage + userPageSize := fun hle => hin ⟨hpage.1, hle⟩
      exact iff_of_false (vidmap_not_refused h hpage.1 hpage.2 hin) (not_not.2 (by omega))
    · refine iff_of_true ⟨iff_of_true (vidmap_outside (by omega)) hin, fun h => absurd h hin⟩ ?_
      omega

/-- The first shell, with a pointer to the start of its program. -/
theorem vidmap_small : VidmapRight smallConfig smallBooted 0x08048000 := by
  obtain ⟨entryPoint, hboot, -⟩ := smallBooted_spec
  have hrun : Runs.run (Kernel.next smallConfig) smallBooted [] = some smallBooted := rfl
  exact (vidmap_iff hboot hrun 0x08048000).2 (by decide)

/-- A pointer to the last two bytes of the program page: the kernel faults while it stores the address. -/
theorem vidmap_not_right : ¬ ∀ (cfg : Config) (machine k0 k : Kernel) (loc : Locals)
    (entryPoint : UInt32) (ops : List Op), boot cfg machine loc = .started k0 entryPoint →
    Runs.run (Kernel.next cfg) k0 ops = some k → ∀ p, VidmapRight cfg k p := by
  intro hall
  obtain ⟨entryPoint, hboot, -⟩ := smallBooted_spec
  have hrun : Runs.run (Kernel.next smallConfig) smallBooted [] = some smallBooted := rfl
  have hright := hall smallConfig smallMachine smallBooted smallBooted (localsAt 0) entryPoint []
    hboot hrun 0x083FFFFE
  exact vidmap_not_refused (boot_programTables hboot) (by decide) (by decide)
    (fun hin => absurd hin.2 (by decide)) hright

end BaseOs
