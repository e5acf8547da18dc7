/-
  A pump that takes the messages of a queue one after the other, and sends each of them to every channel
  that is registered.

  The channels are buffered, and the pump waits where a buffer is full.  It goes over the registered channels
  in any order, looks each of them up again before it sends, and panics if the channel is gone by then.
  **A channel that stays registered reads every message once and in order** (`Run.pending`), and **one that is
  not read lets at most one message more than it has room for through, to any channel** (`Run.read_le`).
-/
import Mathlib.Data.Finset.Basic
import Mathlib.Data.List.Basic
import Mathlib.Data.Nat.Basic

namespace Fanout

/-! ## The pump -/

/-- Where the pump stands with a message: between two channels, at a channel that the map has named, or at
    a channel that has been looked up. -/
inductive Phase (κ : Type)
  | between
  | named (k : κ)
  | found (k : κ)
deriving DecidableEq

/-- The message that the pump has in hand: `seen` are the channels that were registered at some time since,
    and `due` those that have been all the time. -/
structure Hand (κ μ : Type) where
  msg : μ
  seen : Finset κ
  due : Finset κ
  visited : Finset κ
  phase : Phase κ

structure State (κ μ : Type) where
  incoming : List μ
  hand : Option (Hand κ μ)
  registered : Finset κ
  buffer : κ → List μ
  panicked : Bool

/-- What happens in a step; `pump` stands for the steps of the pump that move no message. -/
inductive Label (κ μ : Type)
  | arrive (m : μ)
  | take (m : μ)
  | send (k : κ) (m : μ)
  | pump
  | read (k : κ) (m : μ)
  | register (k : κ)
  | remove (k : κ)

variable {κ μ : Type}

/-- The messages that arrive in a run. -/
def arrived (ls : List (Label κ μ)) : List μ :=
  ls.filterMap fun
    | .arrive m => some m
    | _ => none

/-- The messages that the pump takes. -/
def taken (ls : List (Label κ μ)) : List μ :=
  ls.filterMap fun
    | .take m => some m
    | _ => none

theorem arrived_cons (l : Label κ μ) (ls : List (Label κ μ)) : arrived (l :: ls) = arrived [l] ++ arrived ls :=
  List.filterMap_append (l := [l])

theorem taken_cons (l : Label κ μ) (ls : List (Label κ μ)) : taken (l :: ls) = taken [l] ++ taken ls :=
  List.filterMap_append (l := [l])

variable [DecidableEq κ]

/-- The message in hand, as long as the channel has not got it. -/
def Hand.owes (h : Hand κ μ) (k : κ) : Prop := k ∉ h.visited ∨ (h.phase = .named k ∨ h.phase = .found k)

instance Hand.decidableOwes (h : Hand κ μ) (k : κ) : Decidable (h.owes k) := inferInstanceAs (Decidable (_ ∨ _))

/-- What the pump has in hand for the channel. -/
def owed (k : κ) : Option (Hand κ μ) → List μ
  | none => []
  | some h => if h.owes k then [h.msg] else []

/-- The messages that have been taken and not yet been read from the channel. -/
def State.unread (s : State κ μ) (k : κ) : List μ := s.buffer k ++ owed k s.hand

/-- The messages on their way to the reader of the channel. -/
def State.pending (s : State κ μ) (k : κ) : List μ := s.unread k ++ s.incoming

theorem owed_of {h : Hand κ μ} {k : κ} (howes : h.owes k) : owed k (some h) = [h.msg] := if_pos howes

theorem owed_of_not {h : Hand κ μ} {k : κ} (howes : ¬ h.owes k) : owed k (some h) = [] := if_neg howes

/-- The pump goes on without a change for the channel. -/
theorem owed_congr {h h' : Hand κ μ} {k : κ} (hmsg : h'.msg = h.msg) (howes : h'.owes k ↔ h.owes k) :
    owed k (some h) = owed k (some h') := by
  by_cases hk : h.owes k
  · rw [owed_of hk, owed_of (howes.2 hk), hmsg]
  · rw [owed_of_not hk, owed_of_not (mt howes.1 hk)]

/-- One step, in a program that has not panicked. -/
inductive Step (room : ℕ) (capacity : κ → ℕ) : State κ μ → Label κ μ → State κ μ → Prop
  | arrive {s : State κ μ} (m : μ) : s.panicked = false → s.incoming.length < room →
      Step room capacity s (.arrive m) { s with incoming := s.incoming ++ [m] }
  | take {s : State κ μ} {m : μ} {rest : List μ} : s.panicked = false → s.hand = none → s.incoming = m :: rest →
      Step room capacity s (.take m)
        { s with incoming := rest, hand := some ⟨m, s.registered, s.registered, ∅, .between⟩ }
  | visit {s : State κ μ} {h : Hand κ μ} {k : κ} : s.panicked = false → s.hand = some h → h.phase = .between →
      k ∈ h.seen → k ∉ h.visited →
      Step room capacity s .pump { s with hand := some { h with visited := insert k h.visited, phase := .named k } }
  | find {s : State κ μ} {h : Hand κ μ} {k : κ} : s.panicked = false → s.hand = some h → h.phase = .named k →
      k ∈ s.registered → Step room capacity s .pump { s with hand := some { h with phase := .found k } }
  | panic {s : State κ μ} {h : Hand κ μ} {k : κ} : s.panicked = false → s.hand = some h → h.phase = .named k →
      k ∉ s.registered → Step room capacity s .pump { s with panicked := true }
  | send {s : State κ μ} {h : Hand κ μ} {k : κ} : s.panicked = false → s.hand = some h → h.phase = .found k →
      (s.buffer k).length < capacity k →
      Step room capacity s (.send k h.msg) { s with
        hand := some { h with phase := .between }
        buffer := Function.update s.buffer k (s.buffer k ++ [h.msg]) }
  | finish {s : State κ μ} {h : Hand κ μ} : s.panicked = false → s.hand = some h → h.phase = .between →
      h.due ⊆ h.visited → Step room capacity s .pump { s with hand := none }
  | read {s : State κ μ} {k : κ} {m : μ} {rest : List μ} : s.panicked = false → s.buffer k = m :: rest →
      Step room capacity s (.read k m) { s with buffer := Function.update s.buffer k rest }
  | register {s : State κ μ} (k : κ) : s.panicked = false → Step room capacity s (.register k) { s with
        registered := insert k s.registered
        hand := s.hand.map fun h => { h with seen := insert k h.seen } }
  | remove {s : State κ μ} (k : κ) : s.panicked = false → Step room capacity s (.remove k) { s with
        registered := s.registered.erase k
        hand := s.hand.map fun h => { h with due := h.due.erase k } }

/-- The steps of a run. -/
inductive Run (room : ℕ) (capacity : κ → ℕ) : State κ μ → List (Label κ μ) → State κ μ → Prop
  | nil (s : State κ μ) : Run room capacity s [] s
  | cons {s s' s'' : State κ μ} {l : Label κ μ} {ls : List (Label κ μ)} : Step room capacity s l s' →
      Run room capacity s' ls s'' → Run room capacity s (l :: ls) s''

/-- The messages that are read from a channel. -/
def readFrom (k : κ) (ls : List (Label κ μ)) : List μ :=
  ls.filterMap fun
    | .read k' m => if k' = k then some m else none
    | _ => none

/-! ## What a channel reads -/

/-- The channel has been registered since the message in hand was taken, and the channel at which the pump
    stands counts as visited. -/
structure Served (s : State κ μ) (k : κ) : Prop where
  registered : k ∈ s.registered
  due : ∀ h, s.hand = some h → k ∈ h.due
  visited : ∀ h j, s.hand = some h → h.phase = .named j ∨ h.phase = .found j → j ∈ h.visited

variable {room : ℕ} {capacity : κ → ℕ} {s s' : State κ μ} {l : Label κ μ} {ls : List (Label κ μ)} {k : κ}

/-- One step keeps a channel served, unless it is removed. -/
theorem Step.served (hstep : Step room capacity s l s') (h : Served s k) (hkeep : l ≠ .remove k) : Served s' k := by
  cases hstep with
  | arrive | read => exact ⟨h.registered, h.due, h.visited⟩
  | take => exact ⟨h.registered, by rintro _ ⟨⟩; exact h.registered, by rintro _ j ⟨⟩ (⟨⟨⟩⟩ | ⟨⟨⟩⟩)⟩
  | visit _ hhand =>
    refine ⟨h.registered, ?_, ?_⟩
    · rintro _ ⟨⟩
      exact (h.due _ hhand :)
    · rintro _ j ⟨⟩ (⟨⟨⟩⟩ | ⟨⟨⟩⟩)
      exact Finset.mem_insert_self _ _
  | find _ hhand hphase =>
    refine ⟨h.registered, ?_, ?_⟩
    · rintro _ ⟨⟩
      exact (h.due _ hhand :)
    · rintro _ j ⟨⟩ (⟨⟨⟩⟩ | ⟨⟨⟩⟩)
      exact (h.visited _ _ hhand (.inl hphase) :)
  | panic _ hhand => exact ⟨h.registered, h.due, h.visited⟩
  | send _ hhand =>
    refine ⟨h.registered, ?_, ?_⟩
    · rintro _ ⟨⟩
      exact (h.due _ hhand :)
    · rintro _ j ⟨⟩ (⟨⟨⟩⟩ | ⟨⟨⟩⟩)
  | finish => exact ⟨h.registered, nofun, nofun⟩
  | register j =>
    refine ⟨Finset.mem_insert_of_mem h.registered, fun x hx => ?_, fun x i hx => ?_⟩
    all_goals
      obtain ⟨y, hy, rfl⟩ := Option.map_eq_some_iff.1 hx
    · exact h.due y hy
    · exact h.visited y i hy
  | remove j =>
    have hkj : k ≠ j := fun heq => hkeep (heq ▸ rfl)
    refine ⟨Finset.mem_erase.2 ⟨hkj, h.registered⟩, fun x hx => ?_, fun x i hx => ?_⟩
    all_goals
      obtain ⟨y, hy, rfl⟩ := Option.map_eq_some_iff.1 hx
    · exact Finset.mem_erase.2 ⟨hkj, h.due y hy⟩
    · exact h.visited y i hy

/-- What a step reads from the channel and takes is what there is less to read. -/
theorem Step.unread (hstep : Step room capacity s l s') (h : Served s k) :
    s.unread k ++ taken [l] = readFrom k [l] ++ s'.unread k := by
  cases hstep with
  | arrive => exact List.append_nil _
  | @take m rest _ hhand =>
    change s.buffer k ++ owed k s.hand ++ [m] = s.buffer k ++ owed k (some _)
    rw [hhand, owed_of (.inl (Finset.notMem_empty k))]
    exact congrArg (· ++ [m]) (List.append_nil _)
  | @visit x j _ hhand hphase _ hnot =>
    change s.buffer k ++ owed k s.hand ++ [] = s.buffer k ++ owed k (some _)
    rw [hhand, List.append_nil]
    refine congrArg _ (owed_congr rfl ?_)
    by_cases hkj : k = j
    · simp [Hand.owes, hphase, hkj, hnot]
    · simp [Hand.owes, hphase, hkj, Ne.symm hkj]
  | @find x j _ hhand hphase =>
    change s.buffer k ++ owed k s.hand ++ [] = s.buffer k ++ owed k (some _)
    rw [hhand, List.append_nil]
    refine congrArg _ (owed_congr rfl ?_)
    simp [Hand.owes, hphase]
  | panic => exact List.append_nil _
  | @send x j _ hhand hphase =>
    have hvisited := h.visited x j hhand (.inr hphase)
    change s.buffer k ++ owed k s.hand ++ [] =
      Function.update s.buffer j (s.buffer j ++ [x.msg]) k ++ owed k (some _)
    rw [hhand, List.append_nil]
    by_cases hkj : k = j
    · rw [hkj, owed_of (.inr (.inr hphase)), owed_of_not (by simp [Hand.owes, hvisited]), Function.update_self,
        List.append_nil]
    · rw [Function.update_of_ne hkj]
      refine congrArg _ (owed_congr rfl ?_)
      simp [Hand.owes, hphase, Ne.symm hkj]
  | @finish x _ hhand hphase hall =>
    change s.buffer k ++ owed k s.hand ++ [] = s.buffer k ++ []
    rw [hhand, owed_of_not (by simp [Hand.owes, hphase, hall (h.due x hhand)]), List.append_nil]
  | @read j m rest _ hbuffer =>
    change s.buffer k ++ owed k s.hand ++ [] =
      readFrom k [.read j m] ++ (Function.update s.buffer j rest k ++ owed k s.hand)
    by_cases hkj : j = k
    · rw [hkj, Function.update_self, ← hkj, hbuffer]
      simp [readFrom]
    · rw [Function.update_of_ne (Ne.symm hkj)]
      simp [readFrom, hkj]
  | register j | remove j =>
    change s.buffer k ++ owed k s.hand ++ [] = s.buffer k ++ owed k (s.hand.map _)
    rw [List.append_nil]
    cases s.hand with
    | none => rfl
    | some x => exact congrArg _ (owed_congr rfl Iff.rfl)

/-- What arrives and is taken is what there is more in the queue. -/
theorem Step.incoming (hstep : Step room capacity s l s') : s.incoming ++ arrived [l] = taken [l] ++ s'.incoming := by
  cases hstep with
  | take _ _ hincoming => rw [hincoming]; simp [arrived, taken]
  | _ => simp [arrived, taken]

/-- No buffer holds more than it has room for. -/
def Within (capacity : κ → ℕ) (s : State κ μ) : Prop := ∀ k, (s.buffer k).length ≤ capacity k

theorem Step.within (hstep : Step room capacity s l s') (h : Within capacity s) : Within capacity s' := by
  cases hstep with
  | send _ _ _ hroom =>
    intro i
    change (Function.update s.buffer _ _ i).length ≤ _
    rw [Function.update_apply]
    split_ifs with hi
    · rw [hi, List.length_append]
      exact hroom
    · exact h i
  | read _ hbuffer =>
    intro i
    change (Function.update s.buffer _ _ i).length ≤ _
    rw [Function.update_apply]
    split_ifs with hi
    · have hi' := h i
      rw [hi] at hi' ⊢
      rw [hbuffer, List.length_cons] at hi'
      omega
    · exact h i
  | _ => exact h

/-! ### Runs -/

theorem readFrom_cons : readFrom k (l :: ls) = readFrom k [l] ++ readFrom k ls := List.filterMap_append (l := [l])

theorem Run.within (hrun : Run room capacity s ls s') (h : Within capacity s) : Within capacity s' := by
  induction hrun with
  | nil => exact h
  | cons hstep _ ih => exact ih (hstep.within h)

/-- What a run reads from a channel that stays registered, and takes. -/
theorem Run.unread (hrun : Run room capacity s ls s') (h : Served s k) (hkeep : .remove k ∉ ls) :
    s.unread k ++ taken ls = readFrom k ls ++ s'.unread k := by
  induction hrun with
  | nil => exact List.append_nil _
  | @cons s s₁ s' l ls hstep hrun ih =>
    rw [List.mem_cons, not_or] at hkeep
    have hserved := hstep.served h (Ne.symm hkeep.1)
    rw [taken_cons, readFrom_cons, ← List.append_assoc, hstep.unread h, List.append_assoc, ih hserved hkeep.2,
      List.append_assoc]

theorem Run.incoming (hrun : Run room capacity s ls s') : s.incoming ++ arrived ls = taken ls ++ s'.incoming := by
  induction hrun with
  | nil => exact List.append_nil _
  | cons hstep _ ih =>
    rw [arrived_cons, taken_cons, ← List.append_assoc, hstep.incoming, List.append_assoc, ih, List.append_assoc]

/-- **Every message once and in order**: what was on its way to the reader of a channel and what arrives is
    what the reader reads and what is on its way then, if the channel stays registered. -/
theorem Run.pending (hrun : Run room capacity s ls s') (h : Served s k) (hkeep : .remove k ∉ ls) :
    s.pending k ++ arrived ls = readFrom k ls ++ s'.pending k := by
  rw [State.pending, State.pending, List.append_assoc, hrun.incoming, ← List.append_assoc, hrun.unread h hkeep,
    List.append_assoc]

/-- **A channel that is not read**: the reader of any other one reads what it has not read yet, and at most
    one message more than there is room for. -/
theorem Run.read_le (hrun : Run room capacity s ls s') (hwithin : Within capacity s) {j : κ} (hk : Served s k)
    (hj : Served s j) (hkeep : .remove k ∉ ls) (hkeep' : .remove j ∉ ls) (hidle : readFrom k ls = []) :
    (readFrom j ls).length + (s.unread k).length ≤ (s.unread j).length + (capacity k + 1) := by
  have hlength : (s.unread k).length + (taken ls).length = (s'.unread k).length := by
    have hunread := congrArg List.length (hrun.unread hk hkeep)
    rwa [hidle, List.nil_append, List.length_append] at hunread
  have hlength' : (s.unread j).length + (taken ls).length = (readFrom j ls).length + (s'.unread j).length := by
    have hunread := congrArg List.length (hrun.unread hj hkeep')
    rwa [List.length_append, List.length_append] at hunread
  have hsplit : (s'.unread k).length = (s'.buffer k).length + (owed k s'.hand).length := List.length_append
  have hbuffer := hrun.within hwithin k
  have howed : (owed k s'.hand).length ≤ 1 := by
    cases s'.hand with
    | none => exact Nat.zero_le _
    | some h =>
      rw [owed]
      split_ifs <;> simp
  omega

/-! ### A jam -/

/-- The pump waits at a channel that is full. -/
def Jammed (capacity : κ → ℕ) (s : State κ μ) (k : κ) : Prop :=
  (∃ h, s.hand = some h ∧ h.phase = .found k) ∧ capacity k ≤ (s.buffer k).length

/-- **A jam stays** until the channel is read: nothing is taken and nothing is sent. -/
theorem Step.jammed (hstep : Step room capacity s l s') (h : Jammed capacity s k) (hidle : ∀ m, l ≠ .read k m) :
    Jammed capacity s' k ∧ taken [l] = [] ∧ ∀ j m, l ≠ .send j m := by
  obtain ⟨⟨x, hx, hphase⟩, hfull⟩ := h
  cases hstep with
  | arrive | panic => exact ⟨⟨⟨x, hx, hphase⟩, hfull⟩, rfl, nofun⟩
  | take _ hhand => exact absurd (hhand.symm.trans hx) (by simp)
  | visit _ hhand hother | finish _ hhand hother =>
    obtain rfl := Option.some.inj (hhand.symm.trans hx)
    exact absurd (hother.symm.trans hphase) nofun
  | find _ hhand hother =>
    obtain rfl := Option.some.inj (hhand.symm.trans hx)
    exact absurd (hother.symm.trans hphase) nofun
  | send _ hhand hother hroom =>
    obtain rfl := Option.some.inj (hhand.symm.trans hx)
    obtain rfl := Phase.found.inj (hother.symm.trans hphase)
    exact absurd hroom (not_lt.2 hfull)
  | @read j m rest _ hbuffer =>
    have hkj : k ≠ j := fun heq => hidle m (heq ▸ rfl)
    refine ⟨⟨⟨x, hx, hphase⟩, ?_⟩, rfl, nofun⟩
    change capacity k ≤ (Function.update s.buffer j rest k).length
    rwa [Function.update_of_ne hkj]
  | register j | remove j => exact ⟨⟨⟨_, congrArg (Option.map _) hx, hphase⟩, hfull⟩, rfl, nofun⟩

/-! ### Panics -/

/-- The channels that the map may name are registered. -/
structure Sane (s : State κ μ) : Prop where
  running : s.panicked = false
  seen : ∀ h, s.hand = some h → h.seen ⊆ s.registered
  named : ∀ h j, s.hand = some h → h.phase = .named j → j ∈ s.registered

theorem Step.sane (hstep : Step room capacity s l s') (h : Sane s) (hkeep : ∀ k, l ≠ .remove k) : Sane s' := by
  cases hstep with
  | arrive | read => exact ⟨h.running, h.seen, h.named⟩
  | take hrunning => exact ⟨hrunning, by rintro _ ⟨⟩; exact subset_rfl, by rintro _ _ ⟨⟩ ⟨⟩⟩
  | visit hrunning hhand _ hseen =>
    refine ⟨hrunning, ?_, ?_⟩
    · rintro _ ⟨⟩
      exact (h.seen _ hhand :)
    · rintro _ _ ⟨⟩ ⟨⟩
      exact (h.seen _ hhand hseen :)
  | find hrunning hhand =>
    refine ⟨hrunning, ?_, by rintro _ _ ⟨⟩ ⟨⟩⟩
    rintro _ ⟨⟩
    exact (h.seen _ hhand :)
  | panic _ hhand hphase hgone => exact absurd (h.named _ _ hhand hphase) hgone
  | send hrunning hhand =>
    refine ⟨hrunning, ?_, by rintro _ _ ⟨⟩ ⟨⟩⟩
    rintro _ ⟨⟩
    exact (h.seen _ hhand :)
  | finish hrunning => exact ⟨hrunning, nofun, nofun⟩
  | register j hrunning =>
    refine ⟨hrunning, fun x hx => ?_, fun x i hx hphase => ?_⟩
    all_goals
      obtain ⟨y, hy, rfl⟩ := Option.map_eq_some_iff.1 hx
    · exact Finset.insert_subset_insert _ (h.seen y hy)
    · exact Finset.mem_insert_of_mem (h.named y i hy hphase)
  | remove j => exact absurd rfl (hkeep j)

/-- **Without a removal the pump does not panic.** -/
theorem Run.sane (hrun : Run room capacity s ls s') (h : Sane s) (hkeep : ∀ k, .remove k ∉ ls) : Sane s' := by
  induction hrun with
  | nil => exact h
  | cons hstep _ ih =>
    simp only [List.mem_cons, not_or] at hkeep
    exact ih (hstep.sane h fun k => Ne.symm (hkeep k).1) fun k => (hkeep k).2

end Fanout
