import BaseOs.Process.Claims

set_option autoImplicit false

/-! # The steps of `execute`

Each step, from the search for the program and a slot to the program that has been loaded, keeps the tables
and the threads in order, if the slot `execute` marks is still free then. -/

namespace BaseOs

open Kernel

variable {cfg : Config} {k k' : Kernel} {pts : Terminal → Point} {stack stack' : Terminal → List Slot}
  {t u : Terminal}

theorem Linked.started (hl : Linked k stack) {p : Slot} (h : k.currentPcb? = some p) :
    stack k.currTerminal ≠ [] := by
  intro hnil
  unfold Kernel.currentPcb? at h
  rw [hl.idle _ hnil] at h
  cases h

theorem resumeTerminal_spec {esp ebp : Nat} (h : resumeTerminal k = .resumed k' esp ebp) :
    SameSlots k k' ∧ k'.currTerminal = k.currTerminal ∧ ∃ p, k.currentPcb? = some p := by
  unfold resumeTerminal at h
  simp only at h
  split at h
  · next p hp =>
      cases h
      exact ⟨⟨rfl, fun _ => ⟨rfl, rfl, rfl, rfl⟩⟩, rfl, p, hp⟩
  · cases h

/-- An `execute` that returns `-1`. -/
theorem Ordered.failed {caller : Caller} {pt : Point} (ho : Ordered k pts stack)
    (h : caller.failed k = some (k', pt))
    (hne : stack k.currTerminal = [] → caller = .first ∨ caller = .boot)
    (hobt : ∀ i, (pts k.currTerminal).obtained = some i → i ∈ stack k.currTerminal)
    (hgo : ∀ p ∈ stack k.currTerminal, (pts k.currTerminal).letsGo p = true →
      caller.restarts = true ∧ p.val < 3) :
    Ordered k' (Function.update pts k.currTerminal pt) stack := by
  cases caller with
  | program =>
      cases h
      have hne' : stack k.currTerminal ≠ [] := by
        intro hnil
        rcases hne hnil with h | h <;> cases h
      exact ho.move .user (fun hnil => absurd hnil hne') (fun i hi => (by cases hi))
        (fun i hi => Or.inr (hobt i hi)) (fun p hp h => absurd (hgo p hp h).1 (by decide))
  | restart status =>
      cases h
      have hne' : stack k.currTerminal ≠ [] := by
        intro hnil
        rcases hne hnil with h | h <;> cases h
      exact ho.move (.release status) hne' (fun i hi => (by cases hi)) (fun i hi => Or.inr (hobt i hi))
        (fun p hp h => decide_eq_true (hgo p hp h).2)
  | first =>
      simp only [Caller.failed] at h
      split at h
      · next k1 esp ebp hresume =>
          cases h
          obtain ⟨hsame, hcurr, p, hp⟩ := resumeTerminal_spec hresume
          refine (ho.move .user (fun hnil => absurd hnil (ho.linked.started hp))
            (fun i hi => (by cases hi)) (fun i hi => Or.inr (hobt i hi))
            (fun p hp h => absurd (hgo p hp h).1 (by decide))).sameTerminal hsame hcurr
      · cases h
  | boot =>
      cases h
      exact ho.move .stopped (fun _ => rfl) (fun i hi => (by cases hi)) (fun i hi => Or.inr (hobt i hi))
        (fun p hp h => absurd (hgo p hp h).1 (by decide))

theorem Searching.opens {i : Nat} {caller : Caller} (h : Searching k stack t i caller)
    (hnil : stack t = []) : caller = .first ∨ caller = .boot := by
  cases caller with
  | program => exact absurd hnil h
  | restart status => exact absurd (h.1.symm.trans hnil) (List.cons_ne_nil _ _)
  | first => exact Or.inl rfl
  | boot => exact Or.inr rfl

theorem Searching.low {i : Nat} {caller : Caller} {p : Slot} (h : Searching k stack t i caller)
    (hcaller : caller.restarts = true) (hp : p ∈ stack t) : p.val < 3 := by
  cases caller with
  | restart status =>
      rw [h.1] at hp
      rw [List.mem_singleton.1 hp]
      exact t.isLt
  | _ => cases hcaller

theorem Ordered.lookUp {comm : Bytes} {loc : Locals} {caller : Caller} {pt : Point}
    (ho : Ordered k pts stack) (hpt : pts k.currTerminal = .lookUp comm loc caller)
    (h : lookUpStep cfg k comm loc caller = some (k', pt)) :
    Ordered k' (Function.update pts k.currTerminal pt) stack := by
  have hfits : Searching k stack k.currTerminal 0 caller := by
    have := ho.fits k.currTerminal
    rw [hpt] at this
    exact this
  have hsame := (sameTables_withArgs k comm loc).sameProcs.sameSlots
  unfold lookUpStep at h
  split at h
  · refine (ho.sameTerminal hsame rfl).failed h hfits.opens (fun i hi => ?_) (fun p hp hgo => ?_)
    · rw [show (withArgs k comm loc).currTerminal = k.currTerminal from rfl, hpt] at hi
      cases hi
    · rw [show (withArgs k comm loc).currTerminal = k.currTerminal from rfl, hpt] at hgo
      exact ⟨hgo, hfits.low hgo hp⟩
  · next file _ =>
      cases h
      refine (ho.move (.scan 0 ⟨file, loc, caller⟩) hfits (fun i hi => (by cases hi)) (fun i hi => ?_)
        (fun p _ hgo => ?_)).sameTerminal hsame rfl
      · rw [hpt] at hi
        cases hi
      · rwa [hpt] at hgo

/-- A base shell that does not find its slot at `i` goes on to the next. -/
theorem Searching.next {i : Nat} {caller : Caller} (h : Searching k stack t i caller)
    (hlt : i < 8) (hused : k.inUse ⟨i, hlt⟩ ≠ 0) : Searching k stack t (i + 1) caller := by
  have hstep : k.inUse (baseSlot t) = 0 → i ≤ t.val → i + 1 ≤ t.val := by
    intro hzero hle
    have hne : i ≠ t.val := by
      rintro rfl
      exact hused hzero
    omega
  cases caller with
  | program => exact h
  | restart status => exact ⟨h.1, h.2.1, hstep h.2.1 h.2.2⟩
  | first => exact ⟨h.1, h.2.1, hstep h.2.1 h.2.2⟩
  | boot => exact ⟨h.1, h.2.1, hstep h.2.1 h.2.2⟩

theorem Ordered.scan {i : Nat} {call : Call} {pt : Point} (ho : Ordered k pts stack)
    (hpt : pts k.currTerminal = .scan i call) (h : scanStep k i call = some (k', pt)) :
    Ordered k' (Function.update pts k.currTerminal pt) stack := by
  have hfits : Searching k stack k.currTerminal i call.caller := by
    have := ho.fits k.currTerminal
    rw [hpt] at this
    exact this
  have hobt : ∀ j, (pts k.currTerminal).obtained = some j → False := by
    intro j hj
    rw [hpt] at hj
    cases hj
  have hgo : ∀ p, (pts k.currTerminal).letsGo p = true → call.caller.restarts = true := by
    rw [hpt]
    exact fun _ => id
  unfold scanStep at h
  split_ifs at h with hlt hzero
  · cases h
    refine ho.move (.reserve _ call) ⟨hfits, fun u hu hi hnil => ?_, fun hmem => ?_⟩ (fun j hj => (by cases hj))
      (fun j hj => absurd hj (hobt j)) (fun p _ => hgo p)
    · have hused := ((ho.fits u).idle hu hnil).2
      rw [← hi] at hused
      exact hused hzero
    · exact hgo _ (ho.released _ _ hmem hzero).1
  · cases h
    exact ho.move (.scan (i + 1) call) (hfits.next hlt hzero) (fun j hj => (by cases hj))
      (fun j hj => absurd hj (hobt j)) (fun p _ => hgo p)
  · exact (ho.sameTerminal (sameProcs_printf k _).sameSlots rfl).failed h hfits.opens
      (fun j hj => absurd hj (hobt j)) (fun p hp h => ⟨hgo p h, hfits.low (hgo p h) hp⟩)

/-- A slot that is still free when `execute` marks it is claimed by no other terminal. -/
theorem Ordered.unclaimed {i : Slot} {call : Call} (ho : Ordered k pts stack)
    (hpt : pts k.currTerminal = .reserve i call) (hzero : k.inUse i = 0)
    (hfree : ∀ u, u ≠ k.currTerminal → k.currentProcess u ≠ i.val) (hu : u ≠ k.currTerminal) :
    ¬ Claims stack u (pts u) i := by
  have hfits := ho.fits k.currTerminal
  rw [hpt] at hfits
  have hnot : i ∉ stack u := fun hmem => hfree u hu (ho.released u i hmem hzero).2
  rintro (hbase | hmem | hobt)
  · have hne := hfits.2.1 u hu hbase
    rw [hbase] at hnot
    exact hnot (ho.linked.base_mem hne)
  · exact hnot hmem
  · have hfitsU := ho.fits u
    cases hptU : pts u with
    | create j call' =>
        rw [hptU] at hobt hfitsU
        obtain rfl := Option.some.inj hobt
        exact hfitsU.2 hzero
    | enter j call' =>
        rw [hptU] at hobt hfitsU
        obtain rfl := Option.some.inj hobt
        exact hfitsU.1.2 hzero
    | load j call' =>
        rw [hptU] at hobt hfitsU
        obtain rfl := Option.some.inj hobt
        exact hnot hfitsU
    | _ =>
        rw [hptU] at hobt
        cases hobt

/-- The slot a thread reserves is its base slot, or new. -/
theorem Ordered.obtains {i : Slot} {call : Call} (ho : Ordered k pts stack)
    (hpt : pts k.currTerminal = .reserve i call)
    (hunclaimed : ∀ u, u ≠ k.currTerminal → ¬ Claims stack u (pts u) i) :
    Obtained k stack k.currTerminal i call.caller := by
  have hfits := ho.fits k.currTerminal
  rw [hpt] at hfits
  obtain ⟨hsearch, -, hself⟩ := hfits
  have hbase : i.val < 3 → i = baseSlot k.currTerminal := by
    intro hlt
    by_contra hne
    have hother : (⟨i.val, hlt⟩ : Terminal) ≠ k.currTerminal := fun heq => hne (by rw [← heq]; rfl)
    exact hunclaimed _ hother (Or.inl rfl)
  have hle : i.val ≤ k.currTerminal.val → i = baseSlot k.currTerminal :=
    fun hle => hbase (by have := k.currTerminal.isLt; omega)
  cases hcaller : call.caller with
  | program =>
      rw [hcaller] at hsearch hself
      have hnot : i ∉ stack k.currTerminal := fun hmem => absurd (hself hmem) (by decide)
      refine ⟨hsearch, ?_, fun u hu => ?_⟩
      · by_contra hlt
        rw [hbase (by omega)] at hnot
        exact hnot (ho.linked.base_mem hsearch)
      · by_cases huc : u = k.currTerminal
        · subst huc
          exact hnot hu
        · exact hunclaimed u huc (Or.inr (Or.inl hu))
  | restart status =>
      rw [hcaller] at hsearch
      exact ⟨hsearch.1, hle hsearch.2.2⟩
  | first =>
      rw [hcaller] at hsearch
      exact ⟨hsearch.1, hle hsearch.2.2⟩
  | boot =>
      rw [hcaller] at hsearch
      exact ⟨hsearch.1, hle hsearch.2.2⟩

theorem Ordered.reserve {i : Slot} {call : Call} (ho : Ordered k pts stack)
    (hpt : pts k.currTerminal = .reserve i call)
    (hunclaimed : ∀ u, u ≠ k.currTerminal → ¬ Claims stack u (pts u) i) :
    Ordered (reserveSlot k i) (Function.update pts k.currTerminal (.create i call)) stack := by
  have hobtains := ho.obtains hpt hunclaimed
  have hself : (reserveSlot k i).inUse i = 1 := Function.update_self ..
  have hother : ∀ p, p ≠ i → (reserveSlot k i).inUse p = k.inUse p :=
    fun p hp => Function.update_of_ne hp _ _
  refine ho.advance (fun u hu _ => hu) rfl (ho.linked.congr rfl fun _ _ _ => ⟨rfl, rfl, rfl⟩)
    ⟨hobtains, ?_⟩ (fun _ _ => rfl) id (fun _ _ => rfl) (fun u hu p hp => ?_) (fun u hu p hp => ?_)
    (fun p hp hzero => ?_) (fun p hge hused => ?_)
  · rw [hself]
    decide
  · have hpi : p ≠ i := by
      rintro rfl
      exact hunclaimed u hu hp
    exact ⟨hother p hpi, rfl, rfl, rfl⟩
  · rcases hp with hp | hp
    · exact ho.not_claims (Or.inr (Or.inl hp)) hu
    · obtain rfl := Option.some.inj hp
      exact hunclaimed u hu
  · -- a base shell that starts again has its own slot back, and nobody else gave one up
    exfalso
    by_cases hpi : p = i
    · rw [hpi, hself] at hzero
      cases hzero
    · rw [hother p hpi] at hzero
      have hgo := (ho.released _ p hp hzero).1
      rw [hpt] at hgo
      cases hcaller : call.caller with
      | restart status =>
          rw [hcaller] at hobtains
          rw [hobtains.1] at hp
          exact hpi ((List.mem_singleton.1 hp).trans hobtains.2.symm)
      | _ =>
          simp only [Point.letsGo, hcaller] at hgo
          cases hgo
  · by_cases hpi : p = i
    · subst hpi
      exact Or.inl (Or.inr (Or.inr rfl))
    · rw [hother p hpi] at hused
      by_cases hmem : Claims stack k.currTerminal (pts k.currTerminal) p
      · rcases hmem with h | h | h
        · exact Or.inl (Or.inl h)
        · exact Or.inl (Or.inr (Or.inl h))
        · rw [hpt] at h
          cases h
      · exact Or.inr ⟨hused, hmem⟩

theorem Ordered.create {i : Slot} {call : Call} (ho : Ordered k pts stack)
    (hpt : pts k.currTerminal = .create i call) :
    Ordered (createPcb k i) (Function.update pts k.currTerminal (.enter i call)) stack := by
  have hfits := ho.fits k.currTerminal
  rw [hpt] at hfits
  have hclaim : Claims stack k.currTerminal (pts k.currTerminal) i := by
    rw [hpt]
    exact Or.inr (Or.inr rfl)
  have hother : ∀ p, p ≠ i → SameSlot k (createPcb k i) p := by
    intro p hp
    have hpcb : (createPcb k i).pcb p = k.pcb p := Function.update_of_ne hp _ _
    exact ⟨rfl, Function.update_of_ne hp _ _, by rw [hpcb], by rw [hpcb]⟩
  have hpcb : (createPcb k i).pcb i = { k.pcb i with
      processId := UInt8.ofNat i.val
      parentId := if i.val < 3 then -1 else k.currentProcess k.currTerminal } :=
    Function.update_self ..
  have hkept : Kept k (createPcb k i) stack := by
    intro u p hp
    by_cases hpi : p = i
    · -- a base shell that starts again gets the PCB it had
      subst hpi
      obtain rfl : u = k.currTerminal := ho.claims_unique (Or.inr (Or.inl hp)) hclaim
      rcases hfits.1.base_or_fresh with hbase | ⟨-, hfresh⟩
      · obtain ⟨harray, hid⟩ := ho.linked.known _ p hp
        have hbottom := ho.linked.bottom _ (List.ne_nil_of_mem hp)
        rw [← hbase] at hbottom
        have hlt : p.val < 3 := by
          rw [hbase]
          exact k.currTerminal.isLt
        refine ⟨?_, ?_, ?_⟩
        · rw [harray]
          exact Function.update_self ..
        · rw [hpcb, hid]
        · rw [hpcb, hbottom]
          exact if_pos hlt
      · exact absurd hp (hfresh _)
    · exact ⟨(hother p hpi).processArray, (hother p hpi).processId, (hother p hpi).parentId⟩
  refine ho.advance (fun u hu _ => hu) rfl (ho.linked.congr rfl hkept) ⟨hfits, ?_, ?_, ?_⟩
    (fun _ _ => rfl) id (fun _ _ => rfl) (fun u hu p hp => ?_) (fun u hu p hp => ?_)
    (fun p hp hzero => ?_) (fun p hge hused => ?_)
  · exact Function.update_self ..
  · rw [hpcb]
  · rw [hpcb]
    rfl
  · refine hother p ?_
    rintro rfl
    exact ho.not_claims hclaim hu hp
  · rcases hp with hp | hp
    · exact ho.not_claims (Or.inr (Or.inl hp)) hu
    · obtain rfl := Option.some.inj hp
      exact ho.not_claims hclaim hu
  · have hgo := (ho.released _ p hp hzero).1
    rw [hpt] at hgo
    cases hgo
  · by_cases hmem : Claims stack k.currTerminal (pts k.currTerminal) p
    · rw [hpt] at hmem
      exact Or.inl hmem
    · exact Or.inr ⟨hused, hmem⟩

/-- The obtained slot becomes the current process: the new session is the old one with `i`. -/
theorem Ordered.entered {i : Slot} {call : Call} (ho : Ordered k pts stack)
    (hpt : pts k.currTerminal = .enter i call) (hused : k.inUse i ≠ 0) {new : List Slot} (hi : i ∈ new)
    (hmem : ∀ p, p ∈ new ↔ p = i ∨ p ∈ stack k.currTerminal)
    (hlinked : Linked (enterProcess k i) (Function.update stack k.currTerminal new)) :
    Ordered (enterProcess k i) (Function.update pts k.currTerminal (.load i call))
      (Function.update stack k.currTerminal new) := by
  have hclaim : Claims stack k.currTerminal (pts k.currTerminal) i := by
    rw [hpt]
    exact Or.inr (Or.inr rfl)
  have hself : Function.update stack k.currTerminal new k.currTerminal = new := Function.update_self ..
  refine ho.advance (fun u hu _ => hu) rfl hlinked ?_ (fun u hu => Function.update_of_ne hu _ _)
    (fun _ => ?_) (fun u hu => Function.update_of_ne hu _ _) (fun u hu p _ => ⟨rfl, rfl, rfl, rfl⟩)
    (fun u hu p hp => ?_) (fun p hp hzero => ?_) (fun p hge hp => ?_)
  · change i ∈ Function.update stack k.currTerminal new k.currTerminal
    rw [hself]
    exact hi
  · rw [hself]
    exact List.ne_nil_of_mem hi
  · -- the new session has no process that was not claimed here before
    have hpclaim : Claims stack k.currTerminal (pts k.currTerminal) p := by
      rw [hself] at hp
      rcases hp with hp | hp
      · rcases (hmem p).1 hp with rfl | hold
        · exact hclaim
        · exact Or.inr (Or.inl hold)
      · obtain rfl := Option.some.inj hp
        exact hclaim
    exact ho.not_claims hpclaim hu
  · -- a thread that enters a slot has not let go of any
    exfalso
    rw [hself] at hp
    rcases (hmem p).1 hp with rfl | hold
    · exact hused hzero
    · have hgo := (ho.released _ p hold hzero).1
      rw [hpt] at hgo
      cases hgo
  · by_cases hpclaim : Claims stack k.currTerminal (pts k.currTerminal) p
    · left
      unfold Claims
      rw [hself, hmem]
      rw [hpt] at hpclaim
      rcases hpclaim with h | h | h
      · exact Or.inl h
      · exact Or.inr (Or.inl (Or.inr h))
      · exact Or.inr (Or.inr h)
    · exact Or.inr ⟨hp, hpclaim⟩

theorem enterProcess_kept (k : Kernel) (i : Slot) (stack' : Terminal → List Slot) :
    Kept k (enterProcess k i) stack' := fun _ _ _ => ⟨rfl, rfl, rfl⟩

/-- A base shell is entered. -/
theorem Ordered.enteredBase {i : Slot} {call : Call} (ho : Ordered k pts stack)
    (hpt : pts k.currTerminal = .enter i call) (hi : i = baseSlot k.currTerminal)
    (honly : ∀ p ∈ stack k.currTerminal, p = i) :
    ∃ stack', Ordered (enterProcess k i) (Function.update pts k.currTerminal (.load i call)) stack' := by
  have hfits := ho.fits k.currTerminal
  rw [hpt] at hfits
  obtain ⟨⟨-, hused⟩, harray, hid, hparent⟩ := hfits
  subst hi
  refine ⟨_, ho.entered hpt hused (List.mem_singleton_self _) (fun p => ?_) ?_⟩
  · rw [List.mem_singleton]
    constructor
    · exact Or.inl
    · rintro (h | h)
      · exact h
      · exact honly p h
  · refine ho.linked.enterBase rfl (enterProcess_kept k _ _) harray hid ?_
    refine hparent.trans (if_pos ?_)
    exact k.currTerminal.isLt

/-- The obtained slot becomes the current process, on top of the session or as its base shell. -/
theorem Ordered.enter {i : Slot} {call : Call} (ho : Ordered k pts stack)
    (hpt : pts k.currTerminal = .enter i call) :
    ∃ stack', Ordered (enterProcess k i) (Function.update pts k.currTerminal (.load i call)) stack' := by
  have hfits := ho.fits k.currTerminal
  rw [hpt] at hfits
  obtain ⟨⟨hobtained, hused⟩, harray, hid, hparent⟩ := hfits
  cases hcaller : call.caller with
  | program =>
      rw [hcaller] at hobtained
      obtain ⟨hne, hge, hfresh⟩ := hobtained
      refine ⟨_, ho.entered hpt hused List.mem_cons_self (fun p => List.mem_cons) ?_⟩
      refine ho.linked.push hne hfresh (fun u hu => ?_) rfl (enterProcess_kept k i _) harray hid ?_
      · rw [← hu] at hge
        exact absurd hge (by have := u.isLt; simp only [baseSlot]; omega)
      · exact hparent.trans (if_neg (by omega))
  | restart status =>
      rw [hcaller] at hobtained
      refine ho.enteredBase hpt hobtained.2 fun p hp => ?_
      rw [hobtained.1] at hp
      exact (List.mem_singleton.1 hp).trans hobtained.2.symm
  | first | boot =>
      rw [hcaller] at hobtained
      refine ho.enteredBase hpt hobtained.2 fun p hp => ?_
      rw [hobtained.1.2] at hp
      cases hp

theorem SameSlots.trans {k1 k2 k3 : Kernel} (h12 : SameSlots k1 k2) (h23 : SameSlots k2 k3) :
    SameSlots k1 k3 where
  currentProcess := h23.currentProcess.trans h12.currentProcess
  slot p := ⟨(h23.slot p).inUse.trans (h12.slot p).inUse,
    (h23.slot p).processArray.trans (h12.slot p).processArray,
    (h23.slot p).processId.trans (h12.slot p).processId,
    (h23.slot p).parentId.trans (h12.slot p).parentId⟩

/-- A change of a PCB that leaves its two ids. -/
theorem sameSlots_setPcb (k : Kernel) (i : Slot) {p : Pcb} (hid : p.processId = (k.pcb i).processId)
    (hparent : p.parentId = (k.pcb i).parentId) : SameSlots k (k.setPcb i p) where
  currentProcess := rfl
  slot q := by
    by_cases hq : q = i
    · subst hq
      have hpcb : (k.setPcb q p).pcb q = p := Function.update_self ..
      exact ⟨rfl, rfl, by rw [hpcb, hid], by rw [hpcb, hparent]⟩
    · have hpcb : (k.setPcb i p).pcb q = k.pcb q := Function.update_of_ne hq _ _
      exact ⟨rfl, rfl, by rw [hpcb], by rw [hpcb]⟩

theorem loadProgram_sameSlots (cfg : Config) (k : Kernel) (i : Slot) (file : ProgramFile)
    (loc : Locals) : SameSlots k (loadProgram cfg k i file loc).kernel ∧
      (loadProgram cfg k i file loc).kernel.currTerminal = k.currTerminal := by
  have hrefl : ∀ paging mem, SameSlots k { k with paging := paging, mem := mem } :=
    fun _ _ => ⟨rfl, fun _ => ⟨rfl, rfl, rfl, rfl⟩⟩
  unfold loadProgram
  split_ifs
  · simp only
    split
    · exact ⟨hrefl _ k.mem, rfl⟩
    · split_ifs
      · exact ⟨hrefl _ _, rfl⟩
      · exact ⟨hrefl _ _, rfl⟩
      · refine ⟨?_, rfl⟩
        have hset := @sameSlots_setPcb k i { k.pcb i with currentEsp := loc.esp, currentEbp := loc.ebp }
          rfl rfl
        exact ⟨rfl, fun p => ⟨rfl, rfl, (hset.slot p).processId, (hset.slot p).parentId⟩⟩
  · exact ⟨⟨rfl, fun _ => ⟨rfl, rfl, rfl, rfl⟩⟩, rfl⟩

theorem Ordered.load {i : Slot} {call : Call} {pt : Point} (ho : Ordered k pts stack)
    (hpt : pts k.currTerminal = .load i call) (h : loadStep cfg k i call = some (k', pt)) :
    Ordered k' (Function.update pts k.currTerminal pt) stack := by
  have hmem : i ∈ stack k.currTerminal := by
    have := ho.fits k.currTerminal
    rw [hpt] at this
    exact this
  have hne := List.ne_nil_of_mem hmem
  have hobt : ∀ j, (pts k.currTerminal).obtained = some j → j ∈ stack k.currTerminal := by
    intro j hj
    rw [hpt] at hj
    obtain rfl := Option.some.inj hj
    exact hmem
  have hgo : ∀ p, ¬ (pts k.currTerminal).letsGo p = true := by
    intro p
    rw [hpt]
    exact Bool.false_ne_true
  have hinit : SameSlots k (initProcess k i) := sameSlots_setPcb k i rfl rfl
  obtain ⟨hload, hterm⟩ := loadProgram_sameSlots cfg (initProcess k i) i call.file call.loc
  have hsame := hinit.trans hload
  unfold loadStep at h
  -- loading touches no slot, however it ends
  cases hres : loadProgram cfg (initProcess k i) i call.file call.loc with
  | started k1 entryPoint =>
      rw [hres] at h hsame hterm
      cases h
      exact (ho.move .user (fun hnil => absurd hnil hne) (fun j hj => (by cases hj))
        (fun j hj => Or.inr (hobt j hj)) (fun p _ h => absurd h (hgo p))).sameTerminal hsame hterm
  | failed e k1 =>
      rw [hres] at h hsame hterm
      have hterm' : k1.currTerminal = k.currTerminal := hterm
      rw [← hterm']
      rw [← hterm'] at hne hobt hgo
      exact (ho.sameTerminal hsame hterm').failed h (fun hnil => absurd hnil hne) hobt
        (fun p _ h => absurd h (hgo p))
  | fault k1 =>
      rw [hres] at h
      cases h

end BaseOs
