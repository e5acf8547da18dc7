/-
  The distribution of the messages of a node to its roles, and to the requests that wait for an answer.

  Every role has a buffered channel, and one goroutine sends each message to all channels.  **Every role reads
  the messages in the order in which they arrive, each once** (`reads_inOrder`).  The miner reads only while it
  is in the committee: **outside it lets no more than 33 messages through, to any role** (`deaf_of_idleMiner`),
  and **a request that has ended while the pump waits at its channel lets none through any more**
  (`jammed_forever`).  **The node may panic exactly while a request is open** (`panics_iff`).
-/
import Timbre.Lib.Fanout

namespace Timbre
namespace Distribute

open Fanout (Label arrived taken readFrom Served Sane Within Jammed)

/-! ## The source -/

/-- `Message`. -/
structure Message where
  code : UInt8
  data : String
  sender : String

/-- The channels that a node sends to: those of the roles, and the temporary ones of `GetResponse`,
    `RequestAndResponse` and `SyncBlockchainCore`. -/
inductive Channel
  | syncer
  | services
  | miner
  | user
  | response (n : ℕ)
deriving DecidableEq

def incomingChanSize : ℕ := 128
def syncerChanSize : ℕ := 64
def servChanSize : ℕ := 32
def minerChanSize : ℕ := 32
def userChanSize : ℕ := 32

/-- The sizes with which the channels are made. -/
def chanSize : Channel → ℕ
  | .syncer => syncerChanSize
  | .services => servChanSize
  | .miner => minerChanSize
  | .user => userChanSize
  | .response _ => 128

/-- The messages on their way through a node; `startedMining` says whether `Process` of the miner runs. -/
structure Node where
  net : Fanout.State Channel Message
  startedMining : Bool

/-- What happens at a node: a step of `Listen`, of `Distribute`, of a reader or of a request, or the miner
    starts or stops listening. -/
inductive Event
  | net (l : Label Channel Message)
  | listening (b : Bool)

/-- Who reads when, and which channels come and go: only a request adds a new channel, reads it and removes
    it. -/
def Node.Allows (n : Node) : Label Channel Message → Prop
  | .read .miner _ => n.startedMining = true
  | .read (.response i) _ => .response i ∈ n.net.registered
  | .register k => (∃ i, k = .response i) ∧ k ∉ n.net.registered ∧ n.net.buffer k = []
  | .remove k => (∃ i, k = .response i) ∧ k ∈ n.net.registered
  | _ => True

inductive Step : Node → Event → Node → Prop
  | net {n : Node} {l : Label Channel Message} {net : Fanout.State Channel Message} :
      Fanout.Step incomingChanSize chanSize n.net l net → n.Allows l → Step n (.net l) { n with net := net }
  | listening {n : Node} (b : Bool) : Step n (.listening b) { n with startedMining := b }

inductive Run : Node → List Event → Node → Prop
  | nil (n : Node) : Run n [] n
  | cons {n n' n'' : Node} {e : Event} {es : List Event} : Step n e n' → Run n' es n'' → Run n (e :: es) n''

/-- The steps of the messages. -/
def labels (es : List Event) : List (Label Channel Message) :=
  es.filterMap fun
    | .net l => some l
    | .listening _ => none

/-! ## What the roles read -/

variable {n n' : Node} {e : Event} {es : List Event} {k : Channel}

/-- The messages of a run go through the pump. -/
theorem Run.net (hrun : Run n es n') : Fanout.Run incomingChanSize chanSize n.net (labels es) n'.net := by
  induction hrun with
  | nil => exact .nil _
  | cons hstep _ ih =>
    cases hstep with
    | net hstep => exact .cons hstep ih
    | listening => exact ih

/-- The channel of a role. -/
def Role (k : Channel) : Prop := ∀ i, k ≠ .response i

/-- A role is never removed. -/
theorem Run.keeps_role (hrun : Run n es n') (hrole : Role k) : .remove k ∉ labels es := by
  induction hrun with
  | nil => exact List.not_mem_nil
  | cons hstep _ ih =>
    cases hstep with
    | net _ hallowed =>
      refine fun hmem => (List.mem_cons.1 hmem).elim ?_ ih
      rintro rfl
      obtain ⟨⟨i, hi⟩, -⟩ := hallowed
      exact hrole i hi
    | listening => exact ih

/-- **Every role reads every message once, in the order of their arrival**: what was on its way to the role
    and what arrives is what it reads, followed by what is on its way then. -/
theorem reads_inOrder (hrun : Run n es n') (hrole : Role k) (hserved : Served n.net k) :
    n.net.pending k ++ arrived (labels es) = readFrom k (labels es) ++ n'.net.pending k :=
  hrun.net.pending hserved (hrun.keeps_role hrole)

/-- A miner that does not listen does not read. -/
theorem Run.idleMiner (hrun : Run n es n') (hidle : n.startedMining = false) (hstays : .listening true ∉ es) :
    readFrom .miner (labels es) = [] := by
  induction hrun with
  | nil => rfl
  | @cons n n₁ n' e es hstep _ ih =>
    rw [List.mem_cons, not_or] at hstays
    cases hstep with
    | @net l net hstep hallowed =>
      have hrest := ih hidle hstays.2
      have hread : readFrom .miner [l] = [] := by
        cases l with
        | read j m =>
          have hj : j ≠ .miner := by
            rintro rfl
            exact Bool.false_ne_true (hidle.symm.trans hallowed)
          simp [readFrom, hj]
        | _ => rfl
      change readFrom .miner (l :: labels es) = []
      rw [Fanout.readFrom_cons, hread, hrest]
      rfl
    | listening b =>
      refine ih ?_ hstays.2
      cases b with
      | false => rfl
      | true => exact absurd rfl hstays.1

/-- **A miner outside the committee makes the node deaf**: while it does not listen, every role reads what it
    had not read yet, and at most 33 messages more, less those that wait for the miner already. -/
theorem deaf_of_idleMiner (hrun : Run n es n') (hrole : Role k) (hserved : Served n.net k)
    (hminer : Served n.net .miner) (hwithin : Within chanSize n.net) (hidle : n.startedMining = false)
    (hstays : .listening true ∉ es) :
    (readFrom k (labels es)).length + (n.net.unread .miner).length ≤ (n.net.unread k).length + 33 :=
  hrun.net.read_le hwithin hminer hserved (hrun.keeps_role nofun) (hrun.keeps_role hrole)
    (hrun.idleMiner hidle hstays)

/-! ## A request that has ended -/

/-- The request has ended, and the pump waits at its full channel. -/
structure Abandoned (n : Node) (i : ℕ) : Prop where
  jammed : Jammed chanSize n.net (.response i)
  ended : .response i ∉ n.net.registered

/-- The messages that are sent to a channel. -/
def sentTo (k : Channel) (ls : List (Label Channel Message)) : List Message :=
  ls.filterMap fun
    | .send k' m => if k' = k then some m else none
    | _ => none

/-- One step does not free the pump. -/
theorem Step.abandoned {i : ℕ} {l : Label Channel Message} (hstep : Step n (.net l) n') (h : Abandoned n i) :
    Abandoned n' i ∧ taken [l] = [] ∧ ∀ j m, l ≠ .send j m := by
  cases hstep with
  | @net _ net hstep hallowed =>
    have hidle : ∀ m, l ≠ .read (.response i) m := by
      rintro m rfl
      exact h.ended hallowed
    obtain ⟨hjammed, htaken, hsent⟩ := hstep.jammed h.jammed hidle
    refine ⟨⟨hjammed, ?_⟩, htaken, hsent⟩
    cases hstep with
    | register j =>
      obtain ⟨-, -, hempty⟩ := hallowed
      refine fun hmem => (Finset.mem_insert.1 hmem).elim (fun heq => ?_) h.ended
      -- the full channel is not a new one
      have hfull : 128 ≤ (n.net.buffer (.response i)).length := h.jammed.2
      rw [heq, hempty] at hfull
      exact absurd hfull (by decide)
    | remove j => exact fun hmem => h.ended (Finset.mem_of_mem_erase hmem)
    | _ => exact h.ended

/-- **After that no message is taken, and none is sent to any channel, ever.** -/
theorem jammed_forever {i : ℕ} (hrun : Run n es n') (h : Abandoned n i) :
    taken (labels es) = [] ∧ ∀ k, sentTo k (labels es) = [] := by
  induction hrun with
  | nil => exact ⟨rfl, fun _ => rfl⟩
  | @cons n n₁ n' e es hstep _ ih =>
    cases e with
    | net l =>
      obtain ⟨h₁, htaken, hsent⟩ := hstep.abandoned h
      obtain ⟨htaken', hsent'⟩ := ih h₁
      refine ⟨?_, fun k => ?_⟩
      · change taken (l :: labels es) = []
        rw [Fanout.taken_cons, htaken, htaken']
        rfl
      · have hnone : sentTo k [l] = [] := by
          cases l with
          | send j m => exact absurd rfl (hsent j m)
          | _ => rfl
        change sentTo k ([l] ++ labels es) = []
        rw [sentTo, List.filterMap_append, ← sentTo, ← sentTo, hnone, hsent' k]
        rfl
    | listening b =>
      cases hstep with
      | listening => exact ih ⟨h.jammed, h.ended⟩

/-! ## Panics -/

/-- No request begins. -/
def Calm (es : List Event) : Prop := ∀ k, .net (.register k) ∉ es

/-- Where no request is open and none begins, no channel is removed. -/
theorem Run.keeps_all (hrun : Run n es n') (hcalm : Calm es) (hnone : ∀ i, .response i ∉ n.net.registered) :
    .remove k ∉ labels es := by
  induction hrun with
  | nil => exact List.not_mem_nil
  | @cons n n₁ n' e es hstep _ ih =>
    have hcalm' : Calm es := fun k hmem => hcalm k (List.mem_cons_of_mem _ hmem)
    cases hstep with
    | @net l net hstep hallowed =>
      have hsame : net.registered ⊆ n.net.registered := by
        cases hstep with
        | register j => exact absurd List.mem_cons_self (hcalm j)
        | remove => exact Finset.erase_subset _ _
        | _ => exact subset_rfl
      refine fun hmem => (List.mem_cons.1 hmem).elim ?_ (ih hcalm' fun i hi => hnone i (hsame hi))
      rintro rfl
      obtain ⟨⟨i, rfl⟩, hi⟩ := hallowed
      exact hnone i hi
    | listening => exact ih hcalm' hnone

/-- The map names the channel of a request, the request ends, and the pump does not find the channel. -/
theorem exists_panic {m : Message} {rest : List Message} {i : ℕ} (hsane : Sane n.net) (hhand : n.net.hand = none)
    (hincoming : n.net.incoming = m :: rest) (hopen : .response i ∈ n.net.registered) :
    ∃ n', Run n [.net (.take m), .net .pump, .net (.remove (.response i)), .net .pump] n' ∧
      n'.net.panicked = true := by
  have hrunning := hsane.running
  let k : Channel := .response i
  let h : Fanout.Hand Channel Message := ⟨m, n.net.registered, n.net.registered, ∅, .between⟩
  let h' : Fanout.Hand Channel Message := { h with visited := insert k ∅, phase := .named k }
  let gone := n.net.registered.erase k
  let n₁ : Node := { n with net := { n.net with incoming := rest, hand := some h } }
  let n₂ : Node := { n₁ with net := { n₁.net with hand := some h' } }
  let n₃ : Node := { n₂ with net := { n₂.net with registered := gone, hand := some { h' with due := gone } } }
  have htake : Step n (.net (.take m)) n₁ := .net (.take hrunning hhand hincoming) trivial
  have hvisit : Step n₁ (.net .pump) n₂ := .net (.visit hrunning rfl rfl hopen (Finset.notMem_empty k)) trivial
  have hremove : Step n₂ (.net (.remove k)) n₃ := .net (.remove k hrunning) ⟨⟨i, rfl⟩, hopen⟩
  have hpanic : Step n₃ (.net .pump) { n₃ with net := { n₃.net with panicked := true } } :=
    .net (.panic hrunning rfl rfl (Finset.notMem_erase k _)) trivial
  exact ⟨_, .cons htake (.cons hvisit (.cons hremove (.cons hpanic (.nil _)))), rfl⟩

/-- **The node may panic, without a new request, exactly if a request is open.** -/
theorem panics_iff (hsane : Sane n.net) (hhand : n.net.hand = none) :
    (∃ es n', Calm es ∧ Run n es n' ∧ n'.net.panicked = true) ↔ ∃ i, .response i ∈ n.net.registered := by
  constructor
  · rintro ⟨es, n', hcalm, hrun, hpanicked⟩
    by_contra hnone
    have hsane' := hrun.net.sane hsane fun k => hrun.keeps_all hcalm (not_exists.1 hnone)
    exact Bool.false_ne_true (hsane'.running.symm.trans hpanicked)
  · rintro ⟨i, hopen⟩
    cases hincoming : n.net.incoming with
    | cons m rest =>
      obtain ⟨n', hrun, hpanicked⟩ := exists_panic hsane hhand hincoming hopen
      exact ⟨_, n', by simp [Calm], hrun, hpanicked⟩
    | nil =>
      -- a message arrives first
      let m : Message := ⟨0, "", ""⟩
      let n₁ : Node := { n with net := { n.net with incoming := n.net.incoming ++ [m] } }
      have harrive : Step n (.net (.arrive m)) n₁ :=
        .net (.arrive m hsane.running (by rw [hincoming]; decide)) trivial
      obtain ⟨n', hrun, hpanicked⟩ := exists_panic (n := n₁)
        ⟨hsane.running, hsane.seen, hsane.named⟩ hhand (show n₁.net.incoming = [m] by simp [n₁, hincoming]) hopen
      exact ⟨_, n', by simp [Calm], .cons harrive hrun, hpanicked⟩

/-! ## One message -/

/-- A message, and the steps that bring it to the syncer. -/
def newBlock : Message := ⟨1, "", ""⟩

def toSyncer : List Event :=
  [.net (.arrive newBlock), .net (.take newBlock), .net .pump, .net .pump, .net (.send .syncer newBlock),
    .net (.read .syncer newBlock)]

/-- A node with a miner outside the committee. -/
def idle : Node := ⟨⟨[], none, {.syncer, .services, .miner, .user}, fun _ => [], false⟩, false⟩

theorem run_toSyncer : ∃ n', Run idle toSyncer n' := by
  let h (phase : Fanout.Phase Channel) : Fanout.Hand Channel Message :=
    ⟨newBlock, idle.net.registered, idle.net.registered, insert .syncer ∅, phase⟩
  let holding (h : Fanout.Hand Channel Message) : Node := { idle with net := { idle.net with hand := some h } }
  have hsyncer : .syncer ∈ idle.net.registered := by decide
  have harrive : Step idle (.net (.arrive newBlock)) { idle with net := { idle.net with incoming := [newBlock] } } :=
    .net (.arrive newBlock rfl (by decide)) trivial
  have htake : Step { idle with net := { idle.net with incoming := [newBlock] } } (.net (.take newBlock))
      (holding { h .between with visited := ∅ }) := .net (.take rfl rfl rfl) trivial
  have hvisit : Step (holding { h .between with visited := ∅ }) (.net .pump) (holding (h (.named .syncer))) :=
    .net (.visit (h := { h .between with visited := ∅ }) rfl rfl rfl hsyncer (Finset.notMem_empty _)) trivial
  have hfind : Step (holding (h (.named .syncer))) (.net .pump) (holding (h (.found .syncer))) :=
    .net (.find (s := (holding (h (.named .syncer))).net) rfl rfl rfl hsyncer) trivial
  have hsend : Step (holding (h (.found .syncer))) (.net (.send .syncer newBlock)) _ :=
    .net (.send (h := h (.found .syncer)) rfl rfl rfl (by decide)) trivial
  exact ⟨_, .cons harrive (.cons htake (.cons hvisit (.cons hfind (.cons hsend
    (.cons (.net (.read rfl rfl) trivial) (.nil _))))))⟩

theorem served_idle (k : Channel) (hk : k ∈ idle.net.registered) : Served idle.net k := ⟨hk, nofun, nofun⟩

theorem reads_inOrder_syncer : ∃ n', Run idle toSyncer n' ∧
    idle.net.pending .syncer ++ [newBlock] = [newBlock] ++ n'.net.pending .syncer := by
  obtain ⟨n', hrun⟩ := run_toSyncer
  exact ⟨n', hrun, reads_inOrder hrun nofun (served_idle .syncer (by decide))⟩

theorem deaf_of_idleMiner_syncer : (readFrom .syncer (labels toSyncer)).length + 0 ≤ 0 + 33 := by
  obtain ⟨n', hrun⟩ := run_toSyncer
  exact deaf_of_idleMiner (k := .syncer) hrun nofun (served_idle _ (by decide)) (served_idle _ (by decide))
    (fun _ => Nat.zero_le _) rfl (by simp [toSyncer])

/-- The pump waits at the channel of a request that has ended. -/
def abandoned : Node where
  net :=
    { incoming := []
      hand := some ⟨newBlock, {.response 0}, ∅, {.response 0}, .found (.response 0)⟩
      registered := {.syncer}
      buffer := fun k => if k = .response 0 then List.replicate 128 newBlock else []
      panicked := false }
  startedMining := false

theorem jammed_forever_arrive : ∃ n', Run abandoned [.net (.arrive newBlock)] n' ∧
    taken (labels [.net (.arrive newBlock)]) = [] ∧ ∀ k, sentTo k (labels [.net (.arrive newBlock)]) = [] := by
  have hrun : Run abandoned [.net (.arrive newBlock)] _ :=
    .cons (.net (.arrive newBlock rfl (by decide)) trivial) (.nil _)
  have hfull : (abandoned.net.buffer (.response 0)).length = 128 := List.length_replicate
  exact ⟨_, hrun, jammed_forever hrun ⟨⟨⟨_, rfl, rfl⟩, hfull.ge⟩, by decide⟩⟩

/-- A request is open. -/
def asking : Node := { idle with net := { idle.net with registered := {.syncer, .response 0} } }

theorem panics_iff_asking : ∃ es n', Calm es ∧ Run asking es n' ∧ n'.net.panicked = true :=
  (panics_iff (n := asking) ⟨rfl, nofun, nofun⟩ rfl).2 ⟨0, by decide⟩

end Distribute
end Timbre
