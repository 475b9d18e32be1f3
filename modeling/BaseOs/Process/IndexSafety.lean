import BaseOs.Process.Interleaving

set_option autoImplicit false

/-! # The index of the current process

Everything the kernel does for the running program goes through
`process_array[current_process[curr_terminal]]`. The index is `-1` until the first `execute` of a terminal
has written it, `halt` frees the slot before it leaves it, and interrupts are on all the while.
`index_safe` says which interrupts and reservations keep the expression safe. -/

namespace BaseOs

open Kernel

variable {cfg : Config} {k k' : Kernel} {pts : Terminal → Point} {stack : Terminal → List Slot}
  {t : Terminal}

/-! ## Where the expression is evaluated -/

/-- `process_array[current_process[t]]` can be used: the index is in range, and it leads to the PCB of a
    slot in use. -/
def Kernel.CurrentOk (k : Kernel) (t : Terminal) : Prop :=
  ∃ p q : Slot, k.currentProcess t = p.val ∧ k.processArray p = some q ∧ k.inUse q ≠ 0

/-- The system calls that look into the PCB of the running process. -/
def Op.usesPcb : Op → Bool
  | .openFile .. | .read .. | .write .. | .close .. | .getargs .. => true
  | _ => false

/-- The next step makes the `execute` of a first visit return `-1`, and `terminal_switch` goes on. -/
inductive FirstFails (cfg : Config) (k : Kernel) : Point → Prop
  | lookUp {comm : Bytes} {loc : Locals} {e : ExecError}
      (notFound : findProgram cfg (commandWord comm loc) loc = .error e) :
      FirstFails cfg k (.lookUp comm loc .first)
  | scan {i : Nat} {call : Call} (caller : call.caller = .first) (last : 8 ≤ i) :
      FirstFails cfg k (.scan i call)
  | load {i : Slot} {call : Call} {e : ExecError} {k' : Kernel} (caller : call.caller = .first)
      (failed : loadProgram cfg (initProcess k i) i call.file call.loc = .failed e k') :
      FirstFails cfg k (.load i call)

/-- The event evaluates `process_array[current_process[t]]` with `t` as `curr_terminal`. A switch does so
    for the terminal it leaves and, unless it is the first visit, for the one it comes to; the test
    shortcuts open a descriptor in the table it leads to. -/
def Evaluates (cfg : Config) (s : Threads) (t : Terminal) : ThreadEvent → Prop
  | .service op =>
    op.usesPcb = true ∧ s.point s.kernel.currTerminal = .user ∧ t = s.kernel.currTerminal
  | .step => t = s.kernel.currTerminal ∧
      ((∃ status loc, s.point t = .close status loc) ∨ FirstFails cfg s.kernel (s.point t))
  | .interrupt newTerminal _ _ _ => newTerminal ≠ s.kernel.currTerminal.val ∧ newTerminal < 3 ∧
      (t = s.kernel.currTerminal ∨ (t.val = newTerminal ∧ s.kernel.currentProcess t ≠ -1))
  | .shortcut .. => t = s.kernel.currTerminal
  | .execute .. | .halt .. => False

/-- Every evaluation of the expression in the event is safe. -/
def IndexSafe (cfg : Config) (s : Threads) (ev : ThreadEvent) : Prop :=
  ∀ t, Evaluates cfg s t ev → s.kernel.CurrentOk t

/-! ## The condition -/

/-- The keyboard may interrupt at this point: the current process is there and has its slot. It is not when
    the first `execute` of the terminal or of the kernel has not written `current_process`, and in `halt`
    from where the slot is freed up to where it is taken again or left. -/
def Point.Settled (k : Kernel) (t : Terminal) : Point → Prop
  | .stopped => k.currentProcess t ≠ -1
  | .lookUp _ _ caller => caller = .program
  | .scan _ call | .reserve _ call => call.caller = .program
  | .create _ call | .enter _ call => call.caller ≠ .first ∧ call.caller ≠ .boot
  | .release _ => 3 ≤ k.currentProcess t
  | .toParent => False
  | .user | .load .. | .close .. | .free .. => True

/-- The keyboard interrupts with something that needs the current process: a switch to another terminal,
    or a test shortcut. -/
def ThreadEvent.needsCurrent (s : Threads) : ThreadEvent → Prop
  | .interrupt newTerminal _ _ _ => newTerminal ≠ s.kernel.currTerminal.val ∧ newTerminal < 3
  | .shortcut .. => True
  | _ => False

/-- Slots are still free when they are marked, the keyboard interrupts where it may, and the program of
    a first shell is found. -/
structure Undisturbed (cfg : Config) (s : Threads) (ev : ThreadEvent) : Prop where
  stillFree : StillFree s ev
  settled : ev.needsCurrent s → (s.point s.kernel.currTerminal).Settled s.kernel s.kernel.currTerminal
  found : ∀ comm loc, ev = .step → s.point s.kernel.currTerminal = .lookUp comm loc .first →
    ∃ file, findProgram cfg (commandWord comm loc) loc = .ok file

/-! ## One event -/

theorem Point.Settled.congr {pt : Point} (h : pt.Settled k t)
    (hcur : k'.currentProcess t = k.currentProcess t) : pt.Settled k' t := by
  cases pt with
  | stopped => exact fun heq => h (hcur.symm.trans heq)
  | release status =>
      have hge : 3 ≤ k.currentProcess t := h
      show 3 ≤ k'.currentProcess t
      rw [hcur]
      exact hge
  | _ => exact h

/-- The current terminal has a session where it may be left. -/
theorem Fits.session {pt : Point} (h : Fits k stack k.currTerminal pt) (hl : Linked k stack)
    (hs : pt.Settled k k.currTerminal) : stack k.currTerminal ≠ [] := by
  intro hnil
  have hobt : ∀ i caller, caller ≠ .first ∧ caller ≠ .boot →
      ¬ Obtained k stack k.currTerminal i caller := by
    intro i caller hcaller hi
    cases caller with
    | program => exact hi.1 hnil
    | restart status => exact List.cons_ne_nil _ _ (hi.1.symm.trans hnil)
    | first => exact hcaller.1 rfl
    | boot => exact hcaller.2 rfl
  cases pt with
  | user => exact (h hnil).1 rfl
  | stopped => exact hs (hl.idle _ hnil)
  | lookUp comm loc caller =>
      obtain rfl : caller = .program := hs
      exact h hnil
  | scan i call =>
      have hcaller : call.caller = .program := hs
      have hsearch : Searching k stack k.currTerminal i call.caller := h
      rw [hcaller] at hsearch
      exact hsearch hnil
  | reserve i call =>
      have hcaller : call.caller = .program := hs
      have hsearch := h.1
      rw [hcaller] at hsearch
      exact hsearch hnil
  | create i call => exact hobt _ _ hs h.1
  | enter i call => exact hobt _ _ hs h.1.1
  | load i call =>
      have hmem : i ∈ stack k.currTerminal := h
      rw [hnil] at hmem
      cases hmem
  | close status loc => exact h hnil
  | free status loc => exact List.cons_ne_nil _ _ (h.symm.trans hnil)
  | release status => exact h hnil
  | toParent => exact hs

theorem Ordered.currentOk (ho : Ordered k pts stack) (hne : stack t ≠ [])
    (hs : (pts t).Settled k t) : k.CurrentOk t := by
  obtain ⟨p, rest, htop, hcur, harray⟩ := ho.linked.top hne
  refine ⟨p, p, hcur, harray, fun hzero => ?_⟩
  have hgo := (ho.released t p (by rw [htop]; exact List.mem_cons_self) hzero).1
  cases hpt : pts t with
  | lookUp comm loc caller =>
      rw [hpt] at hgo hs
      obtain rfl : caller = .program := hs
      cases hgo
  | scan i call =>
      rw [hpt] at hgo hs
      have hcaller : call.caller = .program := hs
      simp only [Point.letsGo, hcaller] at hgo
      cases hgo
  | reserve i call =>
      rw [hpt] at hgo hs
      have hcaller : call.caller = .program := hs
      simp only [Point.letsGo, hcaller] at hgo
      cases hgo
  | release status =>
      rw [hpt] at hgo hs
      have hge : 3 ≤ k.currentProcess t := hs
      have hlt : p.val < 3 := of_decide_eq_true hgo
      omega
  | toParent =>
      rw [hpt] at hs
      exact hs
  | _ =>
      rw [hpt] at hgo
      cases hgo

/-- A state in which every evaluation so far was safe: the threads are in order, and every terminal that
    is not shown was left where it may be. -/
def Resting (s : Threads) : Prop :=
  (∃ stack, Ordered s.kernel s.point stack) ∧
    ∀ t, t ≠ s.kernel.currTerminal → (s.point t).Settled s.kernel t

theorem Resting.indexSafe {s : Threads} {ev : ThreadEvent} (h : Resting s)
    (hev : Undisturbed cfg s ev) : IndexSafe cfg s ev := by
  obtain ⟨⟨stack, ho⟩, hrest⟩ := h
  have hcurrent : (s.point s.kernel.currTerminal).Settled s.kernel s.kernel.currTerminal →
      s.kernel.CurrentOk s.kernel.currTerminal := fun hs =>
    ho.currentOk ((ho.fits _).session ho.linked hs) hs
  intro t ht
  cases ev with
  | execute comm loc => exact absurd ht id
  | halt status loc => exact absurd ht id
  | service op =>
      obtain ⟨-, hpt, rfl⟩ := ht
      exact hcurrent (by rw [hpt]; trivial)
  | step =>
      obtain ⟨rfl, ⟨status, loc, hpt⟩ | hfails⟩ := ht
      · exact hcurrent (by rw [hpt]; trivial)
      · have hfits := ho.fits s.kernel.currTerminal
        generalize hpt : s.point s.kernel.currTerminal = pt at hfails hfits
        cases hfails with
        | lookUp notFound =>
            -- the shell of a first visit is found, by the condition on the event
            obtain ⟨file, hfile⟩ := hev.found _ _ rfl hpt
            rw [notFound] at hfile
            cases hfile
        | @scan i call caller last =>
            have hsearch : Searching s.kernel stack s.kernel.currTerminal i call.caller := hfits
            rw [caller] at hsearch
            -- the search of a first visit ends at the terminal's own slot
            have hle := hsearch.2.2
            have := s.kernel.currTerminal.isLt
            omega
        | load caller failed => exact hcurrent (by rw [hpt]; trivial)
  | interrupt newTerminal esp ebp loc =>
      obtain ⟨hne, hlt, rfl | ⟨hnew, hstarted⟩⟩ := ht
      · exact hcurrent (hev.settled ⟨hne, hlt⟩)
      · have haway : t ≠ s.kernel.currTerminal := by
          rintro rfl
          exact hne hnew.symm
        exact ho.currentOk (fun hnil => hstarted (ho.linked.idle t hnil)) (hrest t haway)
  | shortcut shortcut loc =>
      obtain rfl : t = s.kernel.currTerminal := ht
      exact hcurrent (hev.settled trivial)

/-! ## What an event leaves alone -/

/-- An `execute` that returns `-1` does not enter a process. -/
theorem Caller.failed_others {caller : Caller} {pt : Point} (h : caller.failed k = some (k', pt)) :
    k'.currTerminal = k.currTerminal ∧ k'.currentProcess = k.currentProcess := by
  cases caller with
  | first =>
      simp only [Caller.failed] at h
      split at h
      · next k1 esp ebp hresume =>
          cases h
          obtain ⟨hsame, hcurr, -⟩ := resumeTerminal_spec hresume
          exact ⟨hcurr, hsame.currentProcess⟩
      · cases h
  | _ =>
      cases h
      exact ⟨rfl, rfl⟩

/-- `current_process` is changed for the current terminal only. -/
def OthersKept (k k' : Kernel) : Prop :=
  k'.currTerminal = k.currTerminal ∧ ∀ u, u ≠ k.currTerminal → k'.currentProcess u = k.currentProcess u

theorem othersKept_refl (k : Kernel) : OthersKept k k := ⟨rfl, fun _ _ => rfl⟩

theorem Caller.failed_othersKept {caller : Caller} {pt' : Point}
    (h : caller.failed k = some (k', pt')) : OthersKept k k' := by
  obtain ⟨hterm, hcur⟩ := Caller.failed_others h
  exact ⟨hterm, fun u _ => congrFun hcur u⟩

theorem lookUpStep_othersKept {comm : Bytes} {loc : Locals} {caller : Caller} {pt' : Point}
    (h : lookUpStep cfg k comm loc caller = some (k', pt')) : OthersKept k k' := by
  unfold lookUpStep at h
  split at h
  · have hkept : OthersKept (withArgs k comm loc) k' := Caller.failed_othersKept h
    exact hkept
  · cases h
    exact othersKept_refl k

theorem scanStep_othersKept {i : Nat} {call : Call} {pt' : Point} (h : scanStep k i call = some (k', pt')) :
    OthersKept k k' := by
  unfold scanStep at h
  split_ifs at h
  · cases h
    exact othersKept_refl k
  · cases h
    exact othersKept_refl k
  · have hkept := Caller.failed_othersKept h
    exact ⟨hkept.1, hkept.2⟩

theorem loadStep_othersKept {i : Slot} {call : Call} {pt' : Point} (h : loadStep cfg k i call = some (k', pt')) :
    OthersKept k k' := by
  obtain ⟨hload, hterm⟩ := loadProgram_sameSlots cfg (initProcess k i) i call.file call.loc
  unfold loadStep at h
  cases hres : loadProgram cfg (initProcess k i) i call.file call.loc with
  | started k1 entryPoint =>
      rw [hres] at h hload hterm
      cases h
      exact ⟨hterm, fun u _ => congrFun hload.currentProcess u⟩
  | failed e k1 =>
      rw [hres] at h hload hterm
      obtain ⟨hterm', hcur⟩ := Caller.failed_others h
      exact ⟨hterm'.trans hterm, fun u _ => (congrFun hcur u).trans (congrFun hload.currentProcess u)⟩
  | fault k1 =>
      rw [hres] at h
      cases h

theorem closeStep_othersKept {status : UInt8} {loc : Locals} {pt' : Point}
    (h : closeStep k status loc = some (k', pt')) : OthersKept k k' := by
  unfold closeStep at h
  split at h
  · cases h
  · cases h
    exact othersKept_refl k

theorem freeStep_othersKept {status : UInt8} {loc : Locals} {pt' : Point}
    (h : freeStep k status loc = some (k', pt')) : OthersKept k k' := by
  unfold freeStep at h
  split at h
  · cases h
  · split_ifs at h
    cases h
    exact othersKept_refl k

theorem releaseSlot_othersKept {status : UInt8} (h : releaseSlot k status = some k') : OthersKept k k' := by
  unfold releaseSlot at h
  split at h
  · cases h
    exact othersKept_refl k
  · cases h

theorem returnToParent_othersKept (h : returnToParent k = some k') : OthersKept k k' := by
  unfold returnToParent at h
  split at h
  · cases h
  · simp only at h
    split at h
    · cases h
      exact ⟨rfl, fun u hu => Function.update_of_ne hu _ _⟩
    · cases h

/-- A thread in the kernel changes `current_process` for its own terminal only. -/
theorem advance_others {pt pt' : Point} (h : advance cfg k pt = some (k', pt')) : OthersKept k k' := by
  cases pt with
  | user | stopped => cases h
  | lookUp comm loc caller => exact lookUpStep_othersKept h
  | scan i call => exact scanStep_othersKept h
  | reserve i call | create i call =>
      cases h
      exact othersKept_refl k
  | enter i call =>
      cases h
      exact ⟨rfl, fun u hu => Function.update_of_ne hu _ _⟩
  | load i call => exact loadStep_othersKept h
  | close status loc => exact closeStep_othersKept h
  | free status loc => exact freeStep_othersKept h
  | release status =>
      obtain ⟨k1, hk1, heq⟩ := Option.map_eq_some_iff.1 h
      cases heq
      exact releaseSlot_othersKept hk1
  | toParent =>
      obtain ⟨k1, hk1, heq⟩ := Option.map_eq_some_iff.1 h
      cases heq
      exact returnToParent_othersKept hk1

/-- An interrupt changes the current terminal, and what its thread does next. -/
theorem interrupt_others {s s' : Threads} {newTerminal esp ebp : Nat} {loc : Locals}
    (h : s.interrupt cfg newTerminal esp ebp loc = some s') :
    s' = s ∨ (newTerminal ≠ s.kernel.currTerminal.val ∧ newTerminal < 3 ∧
      s'.kernel.currentProcess = s.kernel.currentProcess ∧
      ∀ u, u ≠ s'.kernel.currTerminal → s'.point u = s.point u) := by
  unfold Threads.interrupt at h
  split_ifs at h with hsameTerm hge
  · exact Or.inl (Option.some.inj h).symm
  · exact Or.inl (Option.some.inj h).symm
  refine Or.inr ⟨hsameTerm, by omega, ?_⟩
  split at h
  · cases h
  next p hp =>
    simp only at h
    split at h
    · cases h
    next k1 hscreens =>
      have hscr : k1.currentProcess = s.kernel.currentProcess :=
        (switchScreens_sameProcs hscreens).currentProcess
      split_ifs at h with hfirst
      · cases h
        exact ⟨hscr, fun u hu => Function.update_of_ne hu _ _⟩
      · split at h
        · next k2 esp' ebp' hresume =>
            cases h
            obtain ⟨hsame, -, -⟩ := resumeTerminal_spec hresume
            exact ⟨hsame.currentProcess.trans hscr, fun _ _ => rfl⟩
        · cases h

/-! ## Whole runs -/

theorem Resting.next {s s' : Threads} {ev : ThreadEvent} (h : Resting s)
    (hev : Undisturbed cfg s ev) (hnext : s.next cfg ev = some s') : Resting s' := by
  obtain ⟨⟨stack, ho⟩, hrest⟩ := h
  refine ⟨ho.next hev.stillFree hnext, ?_⟩
  have hcall : ∀ pt, s.call pt = some s' →
      ∀ t, t ≠ s'.kernel.currTerminal → (s'.point t).Settled s'.kernel t := by
    intro pt h t ht
    unfold Threads.call at h
    split at h
    · cases h
      simp only [Function.update_of_ne ht]
      exact hrest t ht
    · cases h
  have hsame : ∀ {k' : Kernel}, SameProcs s.kernel k' →
      ∀ t, t ≠ k'.currTerminal → (s.point t).Settled k' t := by
    intro k' hprocs t ht
    rw [hprocs.currTerminal] at ht
    exact (hrest t ht).congr (congrFun hprocs.currentProcess t)
  cases ev with
  | execute comm loc =>
      cases comm with
      | none => exact hcall _ hnext
      | some comm => exact hcall _ hnext
  | halt status loc => exact hcall _ hnext
  | service op =>
      simp only [Threads.next] at hnext
      split at hnext
      · split_ifs at hnext with hop
        obtain ⟨k', hk', rfl⟩ := Option.map_eq_some_iff.1 hnext
        obtain ⟨⟨k1, out⟩, hstep, rfl⟩ := Option.map_eq_some_iff.1 hk'
        exact hsame (step_device hop hstep).1
      · cases hnext
  | shortcut shortcut loc =>
      obtain ⟨k', hk', rfl⟩ := Option.map_eq_some_iff.1 hnext
      obtain ⟨p, -, hdevice⟩ := testShortcut_byDevice hk'
      exact hsame hdevice.sameProcs
  | step =>
      obtain ⟨⟨k', pt'⟩, hadv, rfl⟩ := Option.map_eq_some_iff.1 hnext
      -- a step moves the thread of the current terminal only
      obtain ⟨hterm, hcur⟩ := advance_others hadv
      intro t ht
      have haway : t ≠ s.kernel.currTerminal := by
        rw [← hterm]
        exact ht
      simp only [Function.update_of_ne haway]
      exact (hrest t haway).congr (hcur t haway)
  | interrupt newTerminal esp ebp loc =>
      rcases interrupt_others hnext with rfl | ⟨hne, hlt, hcur, hpoint⟩
      · exact hrest
      · intro t ht
        rw [hpoint t ht]
        have hsettled : (s.point t).Settled s.kernel t := by
          -- the terminal that is left is at a settled point, by the condition on the event
          by_cases hleft : t = s.kernel.currTerminal
          · rw [hleft]
            exact hev.settled ⟨hne, hlt⟩
          · exact hrest t hleft
        exact hsettled.congr (congrFun hcur t)

theorem resting_start (cfg : Config) (machine : Kernel) (loc : Locals) :
    Resting (Threads.start cfg machine loc) := by
  refine ⟨⟨_, ordered_start cfg machine loc⟩, fun t ht => ?_⟩
  rw [start_point cfg machine loc ht]
  trivial

/-- In every run from `sti` on, with interrupts between any two steps, each use of
    `process_array[current_process[curr_terminal]]` is safe as long as the run is not disturbed. -/
theorem index_safe (machine : Kernel) (loc : Locals) {events : List ThreadEvent}
    (h : Runs.AllSteps (Threads.next cfg) (Undisturbed cfg) (Threads.start cfg machine loc) events) :
    Runs.AllSteps (Threads.next cfg) (IndexSafe cfg) (Threads.start cfg machine loc) events :=
  h.imp (fun _ _ hrest hev => ⟨hrest.indexSafe hev, fun _ hnext => hrest.next hev hnext⟩)
    (resting_start cfg machine loc)

theorem undisturbed_step {s : Threads}
    (hfree : ∀ i call, s.point s.kernel.currTerminal = .reserve i call → s.kernel.inUse i = 0 ∧
      ∀ u, u ≠ s.kernel.currTerminal → s.kernel.currentProcess u ≠ i.val)
    (hboot : ∀ comm loc, s.point s.kernel.currTerminal ≠ .lookUp comm loc .first) :
    Undisturbed cfg s .step where
  stillFree i call _ hpt := hfree i call hpt
  settled h := h.elim
  found comm loc _ hpt := absurd hpt (hboot comm loc)

/-- The six steps of the first `execute`. -/
theorem boot_undisturbed (hshell : HasShell cfg.fs) (machine : Kernel) (loc : Locals) :
    ∃ k1, Runs.run (Threads.next cfg) (Threads.start cfg machine loc) (List.replicate 6 .step)
        = some ⟨k1, fun _ => .user⟩ ∧
      Runs.AllSteps (Threads.next cfg) (Undisturbed cfg) (Threads.start cfg machine loc)
        (List.replicate 6 .step) ∧
      FirstShell cfg k1 := by
  obtain ⟨k1, e1, file, hex1, hfind, hfirst⟩ := boot_shell hshell machine loc
  set k := withArgs (bootState cfg machine) shellCommand loc with hk
  set call : Call := ⟨file, loc, .boot⟩
  let pts (pt : Point) : Terminal → Point := Function.update (fun _ => .user) 0 pt
  have hstep : ∀ {k k' : Kernel} {pt pt' : Point}, k.currTerminal = 0 →
      advance cfg k pt = some (k', pt') →
      (⟨k, pts pt⟩ : Threads).next cfg .step = some ⟨k', pts pt'⟩ := by
    intro k k' pt pt' hterm h
    have hpoint : pts pt k.currTerminal = pt := by
      rw [hterm]
      exact Function.update_self ..
    have hidem : Function.update (pts pt) 0 pt' = pts pt' := Function.update_idem ..
    rw [Threads.next_step hpoint h, hterm, hidem]
  have hlook : advance cfg (bootState cfg machine) (.lookUp shellCommand loc .boot)
      = some (k, .scan 0 call) := by
    change lookUpStep cfg (bootState cfg machine) shellCommand loc .boot = _
    unfold lookUpStep
    rw [hfind]
  have hload : advance cfg (enterProcess (createPcb (reserveSlot k 0) 0) 0) (.load 0 call)
      = some (k1, .user) := by
    rw [execute_some, hfind, boot_freeSlot] at hex1
    change loadStep cfg (enterProcess (createPcb (reserveSlot k 0) 0) 0) 0 call = _
    unfold loadStep
    rw [show loadProgram cfg (initProcess (enterProcess (createPcb (reserveSlot k 0) 0) 0) 0) 0
      call.file call.loc = .started k1 e1 from hex1]
  -- look up, search, mark slot 0, set its PCB up, make it current, load
  have h1 := hstep (k := bootState cfg machine) rfl hlook
  have h2 := hstep (k := k) rfl (@advance_scan_free cfg call k 0 rfl)
  have h3 := hstep (k := k) rfl (rfl : advance cfg k (.reserve 0 call) = _)
  have h4 := hstep (k := reserveSlot k 0) rfl (rfl : advance cfg _ (.create 0 call) = _)
  have h5 := hstep (k := createPcb (reserveSlot k 0) 0) rfl (rfl : advance cfg _ (.enter 0 call) = _)
  have h6 := hstep (k := enterProcess (createPcb (reserveSlot k 0) 0) 0) rfl hload
  have huser : pts .user = fun _ => .user := Function.update_eq_self 0 fun _ => Point.user
  rw [huser] at h6
  refine ⟨k1, ?_, ?_, hfirst⟩
  · exact Runs.run_cons_eq_some.2 ⟨_, h1, Runs.run_cons_eq_some.2 ⟨_, h2, Runs.run_cons_eq_some.2
      ⟨_, h3, Runs.run_cons_eq_some.2 ⟨_, h4, Runs.run_cons_eq_some.2 ⟨_, h5,
        Runs.run_cons_eq_some.2 ⟨_, h6, rfl⟩⟩⟩⟩⟩⟩
  · refine (Runs.allSteps_cons h1).2 ⟨undisturbed_step (fun _ _ h => nomatch h)
      (fun _ _ h => nomatch h), ?_⟩
    refine (Runs.allSteps_cons h2).2 ⟨undisturbed_step (fun _ _ h => nomatch h)
      (fun _ _ h => nomatch h), ?_⟩
    refine (Runs.allSteps_cons h3).2 ⟨undisturbed_step (fun i c hpt => ?_)
      (fun _ _ h => nomatch h), ?_⟩
    · -- slot 0 is marked while no terminal has a process
      cases hpt
      refine ⟨rfl, fun u _ hcur => ?_⟩
      have hidle : (-1 : Int) = ((0 : Slot).val : Int) := hcur
      exact absurd hidle (by decide)
    refine (Runs.allSteps_cons h4).2 ⟨undisturbed_step (fun _ _ h => nomatch h)
      (fun _ _ h => nomatch h), ?_⟩
    refine (Runs.allSteps_cons h5).2 ⟨undisturbed_step (fun _ _ h => nomatch h)
      (fun _ _ h => nomatch h), ?_⟩
    exact (Runs.allSteps_cons h6).2 ⟨undisturbed_step (fun _ _ h => nomatch h)
      (fun _ _ h => nomatch h), trivial⟩

/-- On the small machine Alt+F2 comes once the first shell is up. -/
theorem index_safe_small :
    ∃ events s, Runs.run (Threads.next smallConfig)
        (Threads.start smallConfig smallMachine (localsAt 0))
        (events ++ [.interrupt 1 0 0 (localsAt 0)]) = some s ∧ s.kernel.currTerminal = 1 ∧
      Runs.AllSteps (Threads.next smallConfig) (IndexSafe smallConfig)
        (Threads.start smallConfig smallMachine (localsAt 0))
        (events ++ [.interrupt 1 0 0 (localsAt 0)]) := by
  obtain ⟨k1, hrun, hall, hfirst⟩ := boot_undisturbed smallConfig_hasShell smallMachine (localsAt 0)
  obtain ⟨k2, hint, -, hterm2, -⟩ :=
    @interrupt_first smallConfig k1 1 0 hfirst.switchable hfirst.currentPcb
      (by rw [hfirst.currTerminal]; decide) (hfirst.currentProcess 1) (fun _ => .user) 0 0 (localsAt 0)
  refine ⟨List.replicate 6 .step, _, Runs.run_append_eq_some.2 ⟨_, hrun,
    Runs.run_cons_eq_some.2 ⟨_, hint, rfl⟩⟩, hterm2, index_safe smallMachine (localsAt 0) ?_⟩
  refine (Runs.allSteps_append hrun).2 ⟨hall, (Runs.allSteps_cons hint).2 ⟨?_, trivial⟩⟩
  refine ⟨fun _ _ h => ?_, fun _ => trivial, fun _ _ h => ?_⟩
  · cases h
  · cases h

/-- Alt+F2 between `sti` and the first write of `current_process` saves the stack pointers in
    `process_array[-1]`. -/
theorem index_not_safe : ¬ ∀ (cfg : Config) (machine : Kernel) (loc : Locals)
    (events : List ThreadEvent),
    Runs.AllSteps (Threads.next cfg) (IndexSafe cfg) (Threads.start cfg machine loc) events := by
  intro hall
  have hsafe := (hall smallConfig smallMachine (localsAt 0) [.interrupt 1 0 0 (localsAt 0)]).1
  obtain ⟨p, q, hcur, -⟩ := hsafe 0 ⟨by decide, by decide, Or.inl rfl⟩
  have hidle : (-1 : Int) = p.val := hcur
  omega

end BaseOs
