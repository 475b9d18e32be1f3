import BaseOs.Process.Preemption
import BaseOs.Terminal.Isolation

set_option autoImplicit false

/-! # What the terminals hold

With interrupts between the steps of `execute` and `halt`, the threads of the three terminals are in the
middle of them at once. `Ordered` is what the tables and the threads keep to between any two steps: the
sessions are linked, every thread finds what it relies on, and the slots are held by one terminal each.
`Ordered.advance` is the rule for one step of one thread. -/

namespace BaseOs

open Kernel

variable {cfg : Config} {k k' : Kernel} {pts : Terminal → Point} {stack stack' : Terminal → List Slot}
  {t u : Terminal}

/-! ## The slots of a terminal -/

/-- The slot an `execute` in progress has obtained. -/
def Point.obtained : Point → Option Slot
  | .create i _ | .enter i _ | .load i _ => some i
  | _ => none

/-- `p` is on the parent chain of terminal `t`: from its current process along `parent_id`. -/
def Kernel.OnChain (k : Kernel) (t : Terminal) (p : Slot) : Prop :=
  Chains.Reaches k.parent (slot? (k.currentProcess t)) p

/-- A terminal holds the slots on its parent chain, and the one its `execute` in progress has
    obtained. -/
def Threads.Holds (s : Threads) (t : Terminal) (p : Slot) : Prop :=
  (s.point t).obtained = some p ∨ s.kernel.OnChain t p

/-- No slot is held by two terminals: two `execute` calls in progress have not obtained the same one,
    and none is on two parent chains. -/
def SlotsApart (s : Threads) : Prop := ∀ p t u, s.Holds t p → s.Holds u p → t = u

/-- When `execute` writes `in_use[i] = 1`, the slot is still free: not in use, and not the current
    process of another terminal. -/
def StillFree (s : Threads) (ev : ThreadEvent) : Prop :=
  ∀ i call, ev = .step → s.point s.kernel.currTerminal = .reserve i call →
    s.kernel.inUse i = 0 ∧ ∀ u, u ≠ s.kernel.currTerminal → s.kernel.currentProcess u ≠ i.val

/-! ## What a thread relies on -/

/-- Is it `halt` that called? -/
def Caller.restarts : Caller → Bool
  | .restart _ => true
  | _ => false

/-- What a thread relies on while `execute` looks for a slot, from slot `i` on. A base shell is sure to
    find its own. -/
def Searching (k : Kernel) (stack : Terminal → List Slot) (t : Terminal) (i : Nat) : Caller → Prop
  | .program => stack t ≠ []
  | .restart _ => stack t = [baseSlot t] ∧ k.inUse (baseSlot t) = 0 ∧ i ≤ t.val
  | .first | .boot => (t = k.currTerminal ∧ stack t = []) ∧ k.inUse (baseSlot t) = 0 ∧ i ≤ t.val

/-- What it relies on once it has obtained slot `i` and has not entered it. -/
def Obtained (k : Kernel) (stack : Terminal → List Slot) (t : Terminal) (i : Slot) : Caller → Prop
  | .program => stack t ≠ [] ∧ 3 ≤ i.val ∧ ∀ u, i ∉ stack u
  | .restart _ => stack t = [baseSlot t] ∧ i = baseSlot t
  | .first | .boot => (t = k.currTerminal ∧ stack t = []) ∧ i = baseSlot t

/-- What a thread relies on at each point. -/
def Fits (k : Kernel) (stack : Terminal → List Slot) (t : Terminal) : Point → Prop
  | .user => stack t = [] → t ≠ k.currTerminal ∧ k.inUse (baseSlot t) ≠ 0
  | .stopped => stack t = [] → t = k.currTerminal
  | .lookUp _ _ caller => Searching k stack t 0 caller
  | .scan i call => Searching k stack t i call.caller
  | .reserve i call => Searching k stack t i.val call.caller ∧
      (∀ u, u ≠ t → i = baseSlot u → stack u ≠ []) ∧ (i ∈ stack t → call.caller.restarts = true)
  | .create i call => Obtained k stack t i call.caller ∧ k.inUse i ≠ 0
  | .enter i call => (Obtained k stack t i call.caller ∧ k.inUse i ≠ 0) ∧ k.processArray i = some i ∧
      (k.pcb i).processId = UInt8.ofNat i.val ∧
      (k.pcb i).parentId = if i.val < 3 then -1 else k.currentProcess t
  | .load i _ => i ∈ stack t
  | .close .. | .release _ => stack t ≠ []
  | .free .. => stack t = [baseSlot t]
  | .toParent => ∃ p rest, stack t = p :: rest ∧ k.inUse p = 0

/-- The points at which a terminal's current process `p` has given up its slot. At the end of `halt`
    that is a base shell that did not start again. -/
def Point.letsGo (p : Slot) : Point → Bool
  | .lookUp _ _ caller => caller.restarts
  | .scan _ call | .reserve _ call => call.caller.restarts
  | .release _ => p.val < 3
  | .toParent => true
  | _ => false

/-- The slots terminal `t` lays claim to: its base slot, those of its session, and the one its `execute`
    in progress has obtained. -/
def Claims (stack : Terminal → List Slot) (t : Terminal) (pt : Point) (p : Slot) : Prop :=
  p = baseSlot t ∨ p ∈ stack t ∨ pt.obtained = some p

/-- The tables and the threads are in order: the sessions are linked, every thread finds what it relies
    on, no two have obtained one slot, and what is in use is what the terminals hold, up to the slots
    that are being let go. -/
structure Ordered (k : Kernel) (pts : Terminal → Point) (stack : Terminal → List Slot) : Prop where
  linked : Linked k stack
  fits : ∀ t, Fits k stack t (pts t)
  once : ∀ t u i, (pts t).obtained = some i → (pts u).obtained = some i → t = u
  released : ∀ t, ∀ p ∈ stack t, k.inUse p = 0 →
    (pts t).letsGo p = true ∧ k.currentProcess t = p.val
  owned : ∀ p : Slot, 3 ≤ p.val → k.inUse p ≠ 0 → ∃ t, Claims stack t (pts t) p

theorem Obtained.base_or_fresh {i : Slot} {caller : Caller} (h : Obtained k stack t i caller) :
    i = baseSlot t ∨ (3 ≤ i.val ∧ ∀ u, i ∉ stack u) := by
  cases caller with
  | program => exact Or.inr h.2
  | restart status => exact Or.inl h.2
  | first => exact Or.inl h.2
  | boot => exact Or.inl h.2

/-- An obtained slot is the base slot, or in the session already, or new. -/
theorem Fits.obtained {pt : Point} {i : Slot} (h : Fits k stack t pt) (hi : pt.obtained = some i) :
    i = baseSlot t ∨ i ∈ stack t ∨ (3 ≤ i.val ∧ ∀ u, i ∉ stack u) := by
  cases pt with
  | create j call =>
      obtain rfl := Option.some.inj hi
      exact h.1.base_or_fresh.imp_right Or.inr
  | enter j call =>
      obtain rfl := Option.some.inj hi
      exact h.1.1.base_or_fresh.imp_right Or.inr
  | load j call =>
      obtain rfl := Option.some.inj hi
      exact Or.inr (Or.inl h)
  | _ => cases hi

/-- Terminals lay claim to different slots. -/
theorem Ordered.claims_unique (ho : Ordered k pts stack) {p : Slot} (ht : Claims stack t (pts t) p)
    (hu : Claims stack u (pts u) p) : t = u := by
  have hwf := ho.linked.wf
  -- an obtained slot that another terminal has as base slot or in its session
  have hmixed : ∀ t u, (pts t).obtained = some p → p = baseSlot u ∨ p ∈ stack u → t = u := by
    intro t u ht hu
    rcases (ho.fits t).obtained ht with rfl | hmem | ⟨hge, hfresh⟩
    · rcases hu with hbase | hmem
      · exact baseSlot_injective hbase
      · exact (hwf.reserved u t hmem).symm
    · rcases hu with rfl | hmem'
      · exact hwf.reserved t u hmem
      · exact hwf.owner_unique hmem hmem'
    · rcases hu with rfl | hmem
      · exact absurd hge (by have := u.isLt; simp only [baseSlot]; omega)
      · exact absurd hmem (hfresh u)
  rcases ht with rfl | ht | ht
  · rcases hu with hu | hu | hu
    · exact baseSlot_injective hu
    · exact (hwf.reserved u t hu).symm
    · exact (hmixed u t hu (Or.inl rfl)).symm
  · rcases hu with rfl | hu | hu
    · exact hwf.reserved t u ht
    · exact hwf.owner_unique ht hu
    · exact (hmixed u t hu (Or.inr ht)).symm
  · rcases hu with hu | hu | hu
    · exact hmixed t u ht (Or.inl hu)
    · exact hmixed t u ht (Or.inr hu)
    · exact ho.once t u p ht hu

theorem Linked.onChain_iff (hl : Linked k stack) {p : Slot} : k.OnChain t p ↔ p ∈ stack t :=
  (hl.follows t).mem_iff.symm

theorem Ordered.slotsApart (ho : Ordered k pts stack) : SlotsApart ⟨k, pts⟩ := by
  have hclaims : ∀ t p, Threads.Holds ⟨k, pts⟩ t p → Claims stack t (pts t) p := by
    rintro t p (hobt | hchain)
    · exact Or.inr (Or.inr hobt)
    · exact Or.inr (Or.inl (ho.linked.onChain_iff.1 hchain))
  intro p t u ht hu
  exact ho.claims_unique (hclaims t p ht) (hclaims u p hu)

/-- A terminal without a session, other than the current one, waits for its first visit, and its base
    slot is marked in use. -/
theorem Fits.idle {pt : Point} (h : Fits k stack t pt) (ht : t ≠ k.currTerminal)
    (hnil : stack t = []) : pt = .user ∧ k.inUse (baseSlot t) ≠ 0 := by
  have hsearch : ∀ i caller, ¬ Searching k stack t i caller := by
    intro i caller hs
    cases caller with
    | program => exact hs hnil
    | restart status => exact List.cons_ne_nil _ _ (hs.1.symm.trans hnil)
    | first => exact ht hs.1.1
    | boot => exact ht hs.1.1
  have hobt : ∀ i caller, ¬ Obtained k stack t i caller := by
    intro i caller hs
    cases caller with
    | program => exact hs.1 hnil
    | restart status => exact List.cons_ne_nil _ _ (hs.1.symm.trans hnil)
    | first => exact ht hs.1.1
    | boot => exact ht hs.1.1
  cases pt with
  | user => exact ⟨rfl, (h hnil).2⟩
  | stopped => exact absurd (h hnil) ht
  | lookUp comm loc caller => exact absurd h (hsearch _ _)
  | scan i call => exact absurd h (hsearch _ _)
  | reserve i call => exact absurd h.1 (hsearch _ _)
  | create i call => exact absurd h.1 (hobt _ _)
  | enter i call => exact absurd h.1.1 (hobt _ _)
  | load i call =>
      have hmem : i ∈ stack t := h
      rw [hnil] at hmem
      cases hmem
  | close status loc => exact absurd hnil h
  | free status loc => exact absurd (h.symm.trans hnil) (List.cons_ne_nil _ _)
  | release status => exact absurd hnil h
  | toParent =>
      obtain ⟨p, rest, htop, -⟩ := h
      exact absurd (htop.symm.trans hnil) (List.cons_ne_nil _ _)

/-! ## Steps of one thread -/

/-- The tables say the same about slot `p`. -/
structure SameSlot (k k' : Kernel) (p : Slot) : Prop where
  inUse : k'.inUse p = k.inUse p
  processArray : k'.processArray p = k.processArray p
  processId : (k'.pcb p).processId = (k.pcb p).processId
  parentId : (k'.pcb p).parentId = (k.pcb p).parentId

theorem Searching.frame {i : Nat} {caller : Caller} (h : Searching k stack t i caller)
    (hcurr : stack t = [] → (t = k'.currTerminal ↔ t = k.currTerminal)) (hstack : stack' t = stack t)
    (hbase : k'.inUse (baseSlot t) = k.inUse (baseSlot t)) : Searching k' stack' t i caller := by
  cases caller with
  | program => exact fun hnil => h (hstack.symm.trans hnil)
  | restart status => exact ⟨hstack.trans h.1, hbase.trans h.2.1, h.2.2⟩
  | first =>
      exact ⟨⟨(hcurr h.1.2).2 h.1.1, hstack.trans h.1.2⟩, hbase.trans h.2.1, h.2.2⟩
  | boot =>
      exact ⟨⟨(hcurr h.1.2).2 h.1.1, hstack.trans h.1.2⟩, hbase.trans h.2.1, h.2.2⟩

theorem Obtained.frame {i : Slot} {caller : Caller} (h : Obtained k stack t i caller)
    (hcurr : stack t = [] → (t = k'.currTerminal ↔ t = k.currTerminal)) (hstack : stack' t = stack t)
    (hfresh : (∀ u, i ∉ stack u) → ∀ u, i ∉ stack' u) : Obtained k' stack' t i caller := by
  cases caller with
  | program => exact ⟨fun hnil => h.1 (hstack.symm.trans hnil), h.2.1, hfresh h.2.2⟩
  | restart status => exact ⟨hstack.trans h.1, h.2⟩
  | first => exact ⟨⟨(hcurr h.1.2).2 h.1.1, hstack.trans h.1.2⟩, h.2⟩
  | boot => exact ⟨⟨(hcurr h.1.2).2 h.1.1, hstack.trans h.1.2⟩, h.2⟩

/-- A thread still finds what it relies on when nothing it lays claim to has changed. -/
theorem Fits.frame {pt : Point} (h : Fits k stack t pt)
    (hcurr : stack t = [] → (t = k'.currTerminal ↔ t = k.currTerminal))
    (hstack : stack' t = stack t) (hgrow : ∀ u, stack u ≠ [] → stack' u ≠ [])
    (hsame : ∀ p, Claims stack t pt p → SameSlot k k' p)
    (hfresh : ∀ i, pt.obtained = some i → (∀ u, i ∉ stack u) → ∀ u, i ∉ stack' u)
    (hcur : k'.currentProcess t = k.currentProcess t) : Fits k' stack' t pt := by
  have hbase := (hsame (baseSlot t) (Or.inl rfl)).inUse
  have hne : stack t ≠ [] → stack' t ≠ [] := hgrow t
  cases pt with
  | user =>
      intro hnil
      rw [hstack] at hnil
      refine ⟨fun heq => (h hnil).1 ((hcurr hnil).1 heq), ?_⟩
      rw [hbase]
      exact (h hnil).2
  | stopped =>
      intro hnil
      rw [hstack] at hnil
      exact (hcurr hnil).2 (h hnil)
  | lookUp comm loc caller => exact Searching.frame h hcurr hstack hbase
  | scan i call => exact Searching.frame h hcurr hstack hbase
  | reserve i call =>
      refine ⟨h.1.frame hcurr hstack hbase, fun u hu hi => hgrow u (h.2.1 u hu hi), fun hi => ?_⟩
      rw [hstack] at hi
      exact h.2.2 hi
  | create i call =>
      have hi := hsame i (Or.inr (Or.inr rfl))
      refine ⟨h.1.frame hcurr hstack (hfresh i rfl), ?_⟩
      rw [hi.inUse]
      exact h.2
  | enter i call =>
      have hi := hsame i (Or.inr (Or.inr rfl))
      refine ⟨⟨h.1.1.frame hcurr hstack (hfresh i rfl), ?_⟩, ?_⟩
      · rw [hi.inUse]
        exact h.1.2
      · rw [hi.processArray, hi.processId, hi.parentId, hcur]
        exact h.2
  | load i call =>
      have hmem : i ∈ stack t := h
      rw [← hstack] at hmem
      exact hmem
  | close status loc => exact hne h
  | free status loc => exact hstack.trans h
  | release status => exact hne h
  | toParent =>
      obtain ⟨p, rest, htop, hzero⟩ := h
      refine ⟨p, rest, hstack.trans htop, ?_⟩
      rw [(hsame p (Or.inr (Or.inl (by rw [htop]; exact List.mem_cons_self)))).inUse]
      exact hzero

/-- One thread takes a step to the point `pt`: it changes its own slots only, or takes one nobody lays
    claim to. -/
theorem Ordered.advance {pt : Point} (ho : Ordered k pts stack)
    (hhome : ∀ u, u ≠ t → stack u = [] → u ≠ k.currTerminal) (ht : k'.currTerminal = t)
    (hlinked : Linked k' stack') (hfits : Fits k' stack' t pt)
    (hstack : ∀ u, u ≠ t → stack' u = stack u) (hgrow : stack t ≠ [] → stack' t ≠ [])
    (hcur : ∀ u, u ≠ t → k'.currentProcess u = k.currentProcess u)
    (hsame : ∀ u, u ≠ t → ∀ p, Claims stack u (pts u) p → SameSlot k k' p)
    (hnew : ∀ u, u ≠ t → ∀ p, p ∈ stack' t ∨ pt.obtained = some p → ¬ Claims stack u (pts u) p)
    (hreleased : ∀ p ∈ stack' t, k'.inUse p = 0 →
      pt.letsGo p = true ∧ k'.currentProcess t = p.val)
    (howned : ∀ p : Slot, 3 ≤ p.val → k'.inUse p ≠ 0 → Claims stack' t pt p ∨
      (k.inUse p ≠ 0 ∧ ¬ Claims stack t (pts t) p)) :
    Ordered k' (Function.update pts t pt) stack' where
  linked := hlinked
  fits u := by
    by_cases hu : u = t
    · subst hu
      rw [Function.update_self]
      exact hfits
    · rw [Function.update_of_ne hu]
      have hcurr : stack u = [] → (u = k'.currTerminal ↔ u = k.currTerminal) := fun hnil =>
        iff_of_false (fun heq => hu (heq.trans ht)) (hhome u hu hnil)
      -- what another thread claims has not been touched
      refine (ho.fits u).frame hcurr (hstack u hu) (fun v hv => ?_)
        (hsame u hu) (fun i hi hfresh v hv => ?_) (hcur u hu)
      · by_cases hvt : v = t
        · subst hvt
          exact hgrow hv
        · rw [hstack v hvt]
          exact hv
      · by_cases hvt : v = t
        · subst hvt
          exact hnew u hu i (Or.inl hv) (Or.inr (Or.inr hi))
        · rw [hstack v hvt] at hv
          exact hfresh v hv
  once u v i hui hvi := by
    by_cases hu : u = t
    · by_cases hv : v = t
      · rw [hu, hv]
      · -- the slot would be new to `t` and the other thread's at once
        rw [hu, Function.update_self] at hui
        rw [Function.update_of_ne hv] at hvi
        exact absurd (Or.inr (Or.inr hvi)) (hnew v hv i (Or.inr hui))
    · rw [Function.update_of_ne hu] at hui
      by_cases hv : v = t
      · rw [hv, Function.update_self] at hvi
        exact absurd (Or.inr (Or.inr hui)) (hnew u hu i (Or.inr hvi))
      · rw [Function.update_of_ne hv] at hvi
        exact ho.once u v i hui hvi
  released u p hp hzero := by
    by_cases hu : u = t
    · subst hu
      rw [Function.update_self]
      exact hreleased p hp hzero
    · rw [hstack u hu] at hp
      rw [(hsame u hu p (Or.inr (Or.inl hp))).inUse] at hzero
      rw [Function.update_of_ne hu, hcur u hu]
      exact ho.released u p hp hzero
  owned p hge hp := by
    rcases howned p hge hp with hclaim | ⟨hused, hnot⟩
    · exact ⟨t, by rwa [Function.update_self]⟩
    · -- a slot that was not of `t` keeps the terminal it has
      obtain ⟨u, hu⟩ := ho.owned p hge hused
      have hut : u ≠ t := by
        rintro rfl
        exact hnot hu
      refine ⟨u, ?_⟩
      rw [Function.update_of_ne hut]
      unfold Claims
      rw [hstack u hut]
      exact hu

/-- What the current thread lays claim to, no other thread does. -/
theorem Ordered.not_claims (ho : Ordered k pts stack) {p : Slot} (ht : Claims stack t (pts t) p)
    (hu : u ≠ t) : ¬ Claims stack u (pts u) p := fun h => hu (ho.claims_unique h ht)

/-- The current thread goes on to another point and the tables stay. -/
theorem Ordered.move (ho : Ordered k pts stack) (pt : Point)
    (hfits : Fits k stack k.currTerminal pt)
    (hobt : ∀ i, pt.obtained = some i → (pts k.currTerminal).obtained = some i)
    (hkept : ∀ i, (pts k.currTerminal).obtained = some i →
      pt.obtained = some i ∨ i ∈ stack k.currTerminal)
    (hgo : ∀ p ∈ stack k.currTerminal, (pts k.currTerminal).letsGo p = true → pt.letsGo p = true) :
    Ordered k (Function.update pts k.currTerminal pt) stack := by
  refine ho.advance (fun u hu _ => hu) rfl ho.linked hfits (fun _ _ => rfl) id (fun _ _ => rfl)
    (fun _ _ _ _ => ⟨rfl, rfl, rfl, rfl⟩) (fun u hu p hp => ?_) (fun p hp hzero => ?_)
    (fun p hge hused => ?_)
  · exact ho.not_claims (Or.inr (hp.imp_right (hobt p))) hu
  · obtain ⟨hletsGo, hcur⟩ := ho.released _ p hp hzero
    exact ⟨hgo p hp hletsGo, hcur⟩
  · by_cases hclaim : Claims stack k.currTerminal (pts k.currTerminal) p
    · left
      rcases hclaim with hbase | hmem | hi
      · exact Or.inl hbase
      · exact Or.inr (Or.inl hmem)
      · exact Or.inr ((hkept p hi).symm)
    · exact Or.inr ⟨hused, hclaim⟩

/-- The process tables are the same, as far as the threads rely on them. -/
structure SameSlots (k k' : Kernel) : Prop where
  currentProcess : k'.currentProcess = k.currentProcess
  slot : ∀ p, SameSlot k k' p

theorem SameProcs.sameSlots (h : SameProcs k k') : SameSlots k k' where
  currentProcess := h.currentProcess
  slot p := by
    obtain ⟨hid, hparent, -⟩ := core_eq_iff.1 (h.core p)
    exact ⟨by rw [h.inUse], by rw [h.processArray], hid, hparent⟩

theorem SameSlots.kept (h : SameSlots k k') (stack : Terminal → List Slot) : Kept k k' stack :=
  fun _ p _ => ⟨(h.slot p).processArray, (h.slot p).processId, (h.slot p).parentId⟩

/-- Only the tables matter, and the current terminal as far as it has no session. -/
theorem Ordered.congr (ho : Ordered k pts stack) (hsame : SameSlots k k')
    (hcurr : ∀ t, stack t = [] → (t = k'.currTerminal ↔ t = k.currTerminal)) :
    Ordered k' pts stack where
  linked := ho.linked.congr hsame.currentProcess (hsame.kept stack)
  fits t := (ho.fits t).frame (hcurr t) rfl (fun _ h => h) (fun p _ => hsame.slot p)
    (fun _ _ h => h) (by rw [hsame.currentProcess])
  once := ho.once
  released t p hp hzero := by
    rw [(hsame.slot p).inUse] at hzero
    rw [hsame.currentProcess]
    exact ho.released t p hp hzero
  owned p hge hused := by
    rw [(hsame.slot p).inUse] at hused
    exact ho.owned p hge hused

theorem Ordered.sameTerminal (ho : Ordered k pts stack) (hsame : SameSlots k k')
    (hcurr : k'.currTerminal = k.currTerminal) : Ordered k' pts stack :=
  ho.congr hsame fun t _ => by rw [hcurr]

end BaseOs
