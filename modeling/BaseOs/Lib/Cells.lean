import Mathlib

set_option autoImplicit false

/-! # Stores through pointers, into named cells

A program that stores through a pointer changes whatever lies at the address. Here an address leads to a
cell of the state (`View.cell`), or nowhere, and a store changes that cell. Code that stores ends with a
value or stops on the way, with the state as it is then (`Outcome`). `Wrote` says which cells may have
changed, and `Wrote.keeps` that a part of the state none of them is in has not. -/

namespace Cells

variable {σ κ α β γ : Type*}

/-! ## How code ends -/

/-- Why code stops. -/
inductive Stop
  /-- An access to an address that leads nowhere. -/
  | fault (address : Nat)
  /-- A store into a cell whose contents are not kept track of. -/
  | stray
  /-- The use of a pointer to nothing of the kind it should point at. -/
  | wild
  /-- A loop that goes on for ever. -/
  | endless
  deriving DecidableEq

/-- Code that stores: it ends with a value, or stops. -/
inductive Outcome (σ α : Type*)
  | done (state : σ) (value : α)
  | stopped (state : σ) (why : Stop)

namespace Outcome

/-- The state at the end. -/
def state : Outcome σ α → σ
  | .done s _ => s
  | .stopped s _ => s

/-- Go on after the end. -/
def andThen (o : Outcome σ α) (next : σ → α → Outcome σ β) : Outcome σ β :=
  match o with
  | .done s a => next s a
  | .stopped s why => .stopped s why

variable {o : Outcome σ α} {next : σ → α → Outcome σ β}

@[simp]
theorem done_andThen (s : σ) (a : α) : (Outcome.done s a).andThen next = next s a := rfl

@[simp]
theorem stopped_andThen (s : σ) (why : Stop) :
    (Outcome.stopped s why : Outcome σ α).andThen next = .stopped s why := rfl

theorem andThen_eq_done {s : σ} {b : β} :
    o.andThen next = .done s b ↔ ∃ s1 a, o = .done s1 a ∧ next s1 a = .done s b := by
  cases o with
  | done s1 a => simp
  | stopped s1 why => simp

/-- The code comes back, or stops at an access to an address that leads nowhere. -/
def OnlyFaults (o : Outcome σ α) : Prop := ∀ s why, o = .stopped s why → ∃ address, why = .fault address

theorem onlyFaults_done (s : σ) (a : α) : (Outcome.done s a).OnlyFaults := fun _ _ h => by cases h

theorem OnlyFaults.andThen (h : o.OnlyFaults) (hnext : ∀ s a, o = .done s a → (next s a).OnlyFaults) :
    (o.andThen next).OnlyFaults := by
  cases o with
  | done s a => exact hnext s a rfl
  | stopped s why =>
      intro s' why' heq
      cases heq
      exact h s why rfl

/-- What the first part leaves at its end the second part takes up. -/
theorem state_andThen {R : σ → Prop} (h : R o.state)
    (hnext : ∀ s a, o = .done s a → R s → R (next s a).state) : R (o.andThen next).state := by
  cases o with
  | done s a => exact hnext s a rfl h
  | stopped s why => exact h

end Outcome

/-! ## Cells -/

/-- How a state looks from outside: where an address leads, and what is in a cell. A store leaves alone
    where addresses lead. -/
structure View (σ κ : Type*) where
  cell : σ → Nat → Option κ
  load : σ → κ → UInt8
  store : σ → κ → UInt8 → Option σ
  cell_store : ∀ {s s' : σ} {c : κ} {b : UInt8}, store s c b = some s' → cell s' = cell s

namespace View

variable (V : View σ κ)

/-- Load the byte at an address. -/
def loadByte (s : σ) (address : Nat) : Outcome σ UInt8 :=
  match V.cell s address with
  | none => .stopped s (.fault address)
  | some c => .done s (V.load s c)

/-- Store a byte at an address. -/
def storeByte (s : σ) (address : Nat) (b : UInt8) : Outcome σ Unit :=
  match V.cell s address with
  | none => .stopped s (.fault address)
  | some c =>
    match V.store s c b with
    | none => .stopped s .stray
    | some s' => .done s' ()

/-- Store bytes at consecutive addresses, one after the other. -/
def storeBytes : σ → Nat → List UInt8 → Outcome σ Unit
  | s, _, [] => .done s ()
  | s, address, b :: bs => (V.storeByte s address b).andThen fun s _ => storeBytes s (address + 1) bs

/-- The cells of the `n` bytes from an address on. -/
def cells (s : σ) (address n : Nat) : Set κ := {c | ∃ j < n, V.cell s (address + j) = some c}

/-- Some cells of `C` may have got other contents. -/
inductive Wrote (C : Set κ) : σ → σ → Prop
  | refl (s : σ) : Wrote C s s
  | tail {s s1 s2 : σ} {c : κ} {b : UInt8} (before : Wrote C s s1) (mem : c ∈ C)
      (store : V.store s1 c b = some s2) : Wrote C s s2

/-- The contents of these cells are kept track of. -/
def Tracked (C : Set κ) : Prop := ∀ c ∈ C, ∀ s b, V.store s c b ≠ none

variable {V} {C D : Set κ} {s s1 s' : σ}

theorem Wrote.trans {s2 : σ} (h : V.Wrote C s s1) (h' : V.Wrote C s1 s2) : V.Wrote C s s2 := by
  induction h' with
  | refl => exact h
  | tail _ mem store ih => exact ih.tail mem store

theorem Wrote.mono (h : V.Wrote C s s') (hsub : C ⊆ D) : V.Wrote D s s' := by
  induction h with
  | refl => exact .refl s
  | tail _ mem store ih => exact ih.tail (hsub mem) store

/-- A property that no store into these cells breaks. -/
theorem Wrote.preserves {P : σ → Prop} (h : V.Wrote C s s')
    (hP : ∀ s c b s', c ∈ C → V.store s c b = some s' → P s → P s') (hs : P s) : P s' := by
  induction h with
  | refl => exact hs
  | tail _ mem store ih => exact hP _ _ _ _ mem store ih

/-- A part of the state that no store into these cells changes. -/
theorem Wrote.keeps {f : σ → γ} (h : V.Wrote C s s')
    (hf : ∀ s c b s', c ∈ C → V.store s c b = some s' → f s' = f s) : f s' = f s :=
  h.preserves (P := fun t => f t = f s) (fun _ _ _ _ hc hstore ht => (hf _ _ _ _ hc hstore).trans ht) rfl

theorem Wrote.cell (h : V.Wrote C s s') : V.cell s' = V.cell s :=
  h.keeps fun _ _ _ _ _ hstore => V.cell_store hstore

theorem cells_mono {address n m : Nat} (h : n ≤ m) : V.cells s address n ⊆ V.cells s address m := by
  rintro c ⟨j, hj, hc⟩
  exact ⟨j, hj.trans_le h, hc⟩

theorem storeByte_wrote {address : Nat} {b : UInt8} (hC : ∀ c, V.cell s address = some c → c ∈ C) :
    V.Wrote C s (V.storeByte s address b).state := by
  unfold storeByte
  split
  · exact .refl s
  · next c hc =>
      split
      · exact .refl s
      · next s1 hs1 => exact (Wrote.refl s).tail (hC c hc) hs1

theorem loadByte_state (s : σ) (address : Nat) : (V.loadByte s address).state = s := by
  unfold loadByte
  split <;> rfl

/-- A byte that is loaded leaves the state alone. -/
theorem loadByte_eq_done {address : Nat} {b : UInt8} (h : V.loadByte s address = .done s' b) :
    s' = s := by
  have hstate := V.loadByte_state s address
  rw [h] at hstate
  exact hstate

theorem loadByte_onlyFaults (s : σ) (address : Nat) : (V.loadByte s address).OnlyFaults := by
  intro s' why h
  unfold loadByte at h
  split at h
  · cases h
    exact ⟨address, rfl⟩
  · cases h

theorem storeByte_onlyFaults {address : Nat} {b : UInt8} (htracked : V.Tracked C)
    (hC : ∀ c, V.cell s address = some c → c ∈ C) : (V.storeByte s address b).OnlyFaults := by
  intro s' why h
  unfold storeByte at h
  split at h
  · cases h
    exact ⟨address, rfl⟩
  · next c hc =>
      split at h
      · next hnone => exact absurd hnone (htracked c (hC c hc) s b)
      · cases h

theorem storeBytes_wrote {address : Nat} {bs : List UInt8} (hC : V.cells s address bs.length ⊆ C) :
    V.Wrote C s (V.storeBytes s address bs).state := by
  induction bs generalizing s address with
  | nil => exact .refl s
  | cons b bs ih =>
      have hfirst : V.Wrote C s (V.storeByte s address b).state :=
        storeByte_wrote fun c hc => hC ⟨0, Nat.succ_pos _, hc⟩
      refine Outcome.state_andThen hfirst fun s1 _ hs1 hwrote => hwrote.trans (ih ?_)
      rintro c ⟨j, hj, hc⟩
      rw [hwrote.cell, Nat.add_assoc, Nat.add_comm 1 j] at hc
      exact hC ⟨j + 1, Nat.succ_lt_succ hj, hc⟩

theorem storeBytes_onlyFaults {address : Nat} {bs : List UInt8} (htracked : V.Tracked C)
    (hC : V.cells s address bs.length ⊆ C) : (V.storeBytes s address bs).OnlyFaults := by
  induction bs generalizing s address with
  | nil => exact Outcome.onlyFaults_done _ _
  | cons b bs ih =>
      have hfirst : ∀ c, V.cell s address = some c → c ∈ C := fun c hc => hC ⟨0, Nat.succ_pos _, hc⟩
      refine (storeByte_onlyFaults htracked hfirst).andThen fun s1 u hs1 => ih ?_
      have hwrote := storeByte_wrote (b := b) hfirst
      rw [hs1] at hwrote
      have hcell : V.cell s1 = V.cell s := hwrote.cell
      rintro c ⟨j, hj, hc⟩
      rw [hcell, Nat.add_assoc, Nat.add_comm 1 j] at hc
      exact hC ⟨j + 1, Nat.succ_lt_succ hj, hc⟩

/-! ## Ranges that behave like memory -/

variable (V) in
/-- What is loaded from these cells is what was stored last, and every store succeeds. -/
structure Plain (C : Set κ) : Prop where
  store : ∀ c ∈ C, ∀ s b, ∃ s', V.store s c b = some s'
  same : ∀ c ∈ C, ∀ s b s', V.store s c b = some s' → V.load s' c = b
  other : ∀ c ∈ C, ∀ d ∈ C, d ≠ c → ∀ s b s', V.store s c b = some s' → V.load s' d = V.load s d

variable (V) in
/-- Each of the `n` bytes from an address on is a cell of its own. -/
structure Range (C : Set κ) (s : σ) (address n : Nat) : Prop where
  mem : ∀ i < n, ∃ c ∈ C, V.cell s (address + i) = some c
  apart : ∀ i < n, ∀ j < n, V.cell s (address + i) = V.cell s (address + j) → i = j

variable (V) in
/-- The bytes from an address on. -/
def bytes (s : σ) (address : Nat) : Nat → UInt8 := fun i =>
  ((V.cell s (address + i)).map (V.load s)).getD 0

variable {address n i : Nat}

theorem Range.of_cell (h : V.Range C s address n) (hcell : V.cell s' = V.cell s) :
    V.Range C s' address n where
  mem i hi := by rw [hcell]; exact h.mem i hi
  apart i hi j hj := by rw [hcell]; exact h.apart i hi j hj

theorem Range.loadByte (h : V.Range C s address n) (hi : i < n) :
    V.loadByte s (address + i) = .done s (V.bytes s address i) := by
  obtain ⟨c, -, hc⟩ := h.mem i hi
  unfold View.loadByte bytes
  simp only [hc, Option.map_some, Option.getD_some]

theorem Range.storeByte (h : V.Range C s address n) (hC : V.Plain C) (hi : i < n) (b : UInt8) :
    ∃ s', V.storeByte s (address + i) b = .done s' () ∧ V.Wrote (V.cells s address n) s s' ∧
      ∀ j < n, V.bytes s' address j = Function.update (V.bytes s address) i b j := by
  obtain ⟨c, hcC, hc⟩ := h.mem i hi
  obtain ⟨s', hs'⟩ := hC.store c hcC s b
  have hstore : V.storeByte s (address + i) b = .done s' () := by
    unfold View.storeByte
    simp only [hc, hs']
  refine ⟨s', hstore, (Wrote.refl s).tail ⟨i, hi, hc⟩ hs', fun j hj => ?_⟩
  obtain ⟨d, hdC, hd⟩ := h.mem j hj
  unfold bytes
  rw [V.cell_store hs', hd, Option.map_some, Option.getD_some]
  rcases eq_or_ne j i with rfl | hne
  · obtain rfl : c = d := Option.some.inj (hc.symm.trans hd)
    rw [Function.update_self, hC.same c hcC s b s' hs']
  · have hdc : d ≠ c := by
      rintro rfl
      exact hne (h.apart j hj i hi (hd.trans hc.symm))
    rw [Function.update_of_ne hne, hd, Option.map_some, Option.getD_some,
      hC.other c hcC d hdC hdc s b s' hs']

/-- Stores into a range leave the bytes stored in it, and the others of the range as they were. -/
theorem Range.storeBytes {off : Nat} {bs : List UInt8} (h : V.Range C s address n) (hC : V.Plain C)
    (hle : off + bs.length ≤ n) :
    ∃ s', V.storeBytes s (address + off) bs = .done s' () ∧ V.Wrote (V.cells s address n) s s' ∧
      ∀ j < n, V.bytes s' address j
        = if off ≤ j then bs.getD (j - off) (V.bytes s address j) else V.bytes s address j := by
  induction bs generalizing s off with
  | nil => exact ⟨s, rfl, .refl s, fun j _ => by simp⟩
  | cons b bs ih =>
      rw [List.length_cons] at hle
      obtain ⟨s1, hstore, hwrote, hbytes⟩ := h.storeByte hC (show off < n by omega) b
      obtain ⟨s', hrest, hwrote', hbytes'⟩ :=
        @ih s1 (off + 1) (h.of_cell hwrote.cell) (show off + 1 + bs.length ≤ n by omega)
      have hcells : V.cells s1 address n = V.cells s address n := by
        unfold cells
        rw [hwrote.cell]
      rw [hcells] at hwrote'
      refine ⟨s', ?_, hwrote.trans hwrote', fun j hj => ?_⟩
      · unfold View.storeBytes
        rw [hstore, Outcome.done_andThen, Nat.add_assoc]
        exact hrest
      · rw [hbytes' j hj, hbytes j hj]
        rcases Nat.lt_trichotomy j off with hlt | rfl | hgt
        · rw [if_neg (by omega), if_neg (by omega), Function.update_of_ne hlt.ne]
        · rw [if_neg (by omega), if_pos le_rfl, Function.update_self, Nat.sub_self, List.getD_cons_zero]
        · have hsub : j - off = j - (off + 1) + 1 := by omega
          rw [if_pos (Nat.succ_le_of_lt hgt), if_pos hgt.le, hsub, List.getD_cons_succ,
            Function.update_of_ne hgt.ne']

end View

end Cells
