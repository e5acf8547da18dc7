/-
  The tails that `UpdateMainTailIndex` leaves.

  Its second loop ranges over the tails while `DeleteFork` takes them out of the same array.
  **No tail below the irreversible block number is left exactly if there has been none, or if the
  main tail can be moved and is not below it, each of them has a fork of its own, and no two are
  neighbours, the last two apart** (`prunesStale_iff`).
-/
import Timbre.Core.MainTail
import Timbre.Lib.Sweep

namespace Timbre
namespace Blockchain

variable {bc : Blockchain} {m m' t x : Block} {ml mapped : List Block}

/-! ## The loop that prunes -/

/-- The tail is below the irreversible block number. -/
def Stale (bc : Blockchain) (t : Block) : Prop := t.height < bc.irreversibleBlock

instance (bc : Blockchain) (t : Block) : Decidable (bc.Stale t) :=
  inferInstanceAs (Decidable (t.height < bc.irreversibleBlock))

/-- The second loop of `UpdateMainTailIndex`. -/
def pruning : Sweep (Blockchain × List Block) Block where
  slice s := s.1.tails
  behind s := s.2
  visit s t := if t.height < s.1.irreversibleBlock then s.1.deleteFork s.2 t else s

theorem pruneFrom_eq_run : ∀ (remaining i : ℕ) (bc : Blockchain) (behind : List Block),
    bc.pruneFrom behind i remaining = (pruning.run i remaining (bc, behind)).1
  | 0, _, _, _ => rfl
  | remaining + 1, i, bc, behind => by
    have harray : pruning.slice (bc, behind) ++ pruning.behind (bc, behind) = bc.tails ++ behind := rfl
    rw [pruneFrom, Sweep.run, harray]
    cases (bc.tails ++ behind)[i]? with
    | none => rfl
    | some t =>
      dsimp only [pruning]
      split_ifs
      · exact pruneFrom_eq_run remaining (i + 1) _ _
      · exact pruneFrom_eq_run remaining (i + 1) bc behind

/-- The chain `bc` is left of `bc₀`: some stale tails have been taken out, each with a fork of its
    own, and nothing else.  The main tail is still as high as `m`. -/
structure Pruned (bc₀ : Blockchain) (m : Block) (bc : Blockchain) : Prop extends Listed bc where
  genesis : bc.genesis = bc₀.genesis
  map : bc.mainForkMap = bc₀.mainForkMap
  irreversible : bc.irreversibleBlock = bc₀.irreversibleBlock
  sub : bc.tails ⊆ bc₀.tails
  stored_iff : ∀ x, bc.Stored x ↔
    bc₀.Stored x ∧ ∀ t ∈ bc₀.tails, t ∉ bc.tails → ∀ P c, bc₀.GrowsOn t P c → x ∉ P
  stale : ∀ t ∈ bc₀.tails, t ∉ bc.tails → bc₀.Stale t ∧ ∃ P c, bc₀.GrowsOn t P c
  apart : ∀ t ∈ bc₀.tails, t ∉ bc.tails → ∀ u ∈ bc₀.tails, u ∉ bc.tails → t ≠ u →
    ∀ P c Q d, bc₀.GrowsOn t P c → bc₀.GrowsOn u Q d → ∀ x ∈ P, x ∉ Q
  main : ∃ m', bc.getMainTail = some m' ∧ m'.height = m.height

/-- What is left when a fork has been cut off is listed. -/
theorem Cut.listed {bc' : Blockchain} {P s : List Block} {c : Block} (h : Cut bc bc' t P c s) (hlisted : bc.Listed)
    (hsub : ∀ x ∈ bc'.tails, x ∈ bc.tails ∧ x ≠ t) : bc'.Listed where
  keyed k b hk := by
    rw [h.db, without] at hk
    split_ifs at hk
    exact hlisted.keyed k b hk
  linked c p hc hp := hlisted.linked c p (h.stored_iff.1 hc).1 (h.stored_iff.1 hp).1
  stored x hx := by
    obtain ⟨hx, hxt⟩ := hsub x hx
    exact h.stored_iff.2 ⟨hlisted.stored x hx, fun hP => hxt (h.tail_of_mem hlisted hx hP)⟩
  leaf x hx c hc := hlisted.leaf x (hsub x hx).1 c (h.stored_iff.1 hc).1
  nodup := h.nodup
  forkLengths_eq := h.forkLengths

namespace Pruned

variable {bc₀ : Blockchain} {P : List Block} {c : Block}

theorem isInMainFork_eq (h : Pruned bc₀ m bc) (x : Block) : bc.isInMainFork x = bc₀.isInMainFork x := by
  simp only [isInMainFork, h.map]

/-- A chain that is left has been one. -/
theorem isChain (h : Pruned bc₀ m bc) {l : List Block} (hl : bc.IsChain l) : bc₀.IsChain l :=
  hl.restrict h.genesis.symm fun x hx => ((h.stored_iff x).1 (hl.stored x hx)).1

theorem growsOn (h : Pruned bc₀ m bc) (hgrows : bc.GrowsOn t P c) : bc₀.GrowsOn t P c := by
  obtain ⟨s, hchain, hhead, hP, hc⟩ := hgrows
  refine ⟨s, h.isChain hchain, hhead, fun x hx => ?_, ?_⟩
  · rw [← h.isInMainFork_eq]
    exact hP x hx
  · rw [← h.isInMainFork_eq]
    exact hc

/-- The chain of the map is left. -/
theorem chain_main (h : Pruned bc₀ m bc) (h₀ : bc₀.Tracked m ml (m :: ml)) : bc.IsChain (m :: ml) := by
  refine h₀.chain.restrict h.genesis fun x hx => (h.stored_iff x).2 ⟨h₀.chain.stored x hx, ?_⟩
  rintro t - - P c ⟨s, -, -, hP, -⟩ hxP
  exact hP x hxP ((h₀.map.isInMainFork_iff h₀.chain (h₀.chain.stored x hx)).2 hx)

theorem mapped_main (h : Pruned bc₀ m bc) (h₀ : bc₀.Tracked m ml (m :: ml)) : bc.Mapped (m :: ml) := by
  unfold Mapped
  rw [h.map]
  exact h₀.map

theorem main_mem (h : Pruned bc₀ m bc) (h₀ : bc₀.Tracked m ml (m :: ml)) : m ∈ bc.tails := by
  by_contra hnot
  obtain ⟨-, P, c, s, -, hhead, hP, -⟩ := h.stale m h₀.mem_tails hnot
  refine hP m (List.mem_of_mem_head? hhead) ?_
  exact (h₀.map.isInMainFork_iff h₀.chain (h₀.stored m h₀.mem_tails)).2 (by simp)

/-- **One visit** of a stale tail that `DeleteFork` takes out. -/
theorem take (h : Pruned bc₀ m bc) (h₀ : bc₀.Tracked m ml (m :: ml)) (hhigh : ∀ x ∈ bc₀.tails, x.height ≤ m.height)
    (behind : List Block) (ht : t ∈ bc.tails) (hstale : bc₀.Stale t) (hnot : ¬ bc.isInMainFork t)
    (hfound : (bc.findCommonAncestor t).isOk) {l : List Block} (hl : bc.IsChain (t :: l)) :
    ∃ t₁ t₂ b P c s bc', bc.tails = t₁ ++ t :: t₂ ∧ bc'.tails = t₁ ++ t₂ ∧
      bc.deleteFork behind t = (bc', b :: behind) ∧ (t₂.getLast? = some b ∨ t₂ = [] ∧ b ∈ P) ∧
        Cut bc bc' t P c s ∧ (∀ x ∈ P, ¬ bc.isInMainFork x) ∧ bc.isInMainFork c ∧ Pruned bc₀ m bc' := by
  obtain ⟨P, c, s, hchain, hhead, hP, hc⟩ := (h.mapped_main h₀).exists_growsOn (h.chain_main h₀) hl hnot
  obtain ⟨t₁, t₂, b, hsplit, -, hcut, hres, hlast⟩ := h.toListed.deleteFork behind ht hfound hchain hhead hP hc
  have hgrows : bc₀.GrowsOn t P c := h.growsOn ⟨s, hchain, hhead, hP, hc⟩
  have hnodup := h.nodup
  rw [hsplit, List.nodup_middle, List.nodup_cons] at hnodup
  have hrest : ∀ x, x ∈ t₁ ++ t₂ ↔ x ∈ bc.tails ∧ x ≠ t := fun x => mem_rest hsplit hnodup.1
  refine ⟨t₁, t₂, b, P, c, s, bc.cutOff P (t₁ ++ t₂), hsplit, rfl, hres, hlast, hcut, hP, hc, ?_⟩
  -- what is out of the tails now was out of them before, or it is `t`
  have hout : ∀ x, x ∉ t₁ ++ t₂ → x ∉ bc.tails ∨ x = t := fun x hx => by
    by_cases hmem : x ∈ bc.tails
    · exact .inr (by_contra fun hxt => hx ((hrest x).2 ⟨hmem, hxt⟩))
    · exact .inl hmem
  have hdisjoint : ∀ u ∈ bc₀.tails, u ∉ bc.tails → ∀ Q d, bc₀.GrowsOn u Q d → ∀ x ∈ P, x ∉ Q :=
    fun u hu hgone Q d hQ x hx => ((h.stored_iff x).1 (hcut.stored hx)).2 u hu hgone Q d hQ
  have hmain := h.main_mem h₀
  have hmt : m ≠ t := fun hmt => hnot <| hmt ▸ ((h.mapped_main h₀).isInMainFork_iff (h.chain_main h₀)
    (h.toListed.stored m hmain)).2 (by simp)
  have hmrest : m ∈ t₁ ++ t₂ := (hrest m).2 ⟨hmain, hmt⟩
  refine ⟨hcut.listed h.toListed fun x hx => (hrest x).1 hx, h.genesis, h.map, h.irreversible,
    fun x hx => h.sub ((hrest x).1 hx).1, fun x => ?_, fun u hu hgone => ?_, ?_, ?_⟩
  · rw [hcut.stored_iff, h.stored_iff]
    constructor
    · rintro ⟨⟨hx, hall⟩, hxP⟩
      refine ⟨hx, fun u hu hgone Q d hQ => ?_⟩
      rcases hout u hgone with hgone | rfl
      · exact hall u hu hgone Q d hQ
      · rw [(hQ.unique hgrows).1]
        exact hxP
    · rintro ⟨hx, hall⟩
      refine ⟨⟨hx, fun u hu hgone => hall u hu fun hmem => hgone ((hrest u).1 hmem).1⟩, ?_⟩
      exact hall t (h.sub ht) (fun hmem => ((hrest t).1 hmem).2 rfl) P c hgrows
  · rcases hout u hgone with hgone | rfl
    · exact h.stale u hu hgone
    · exact ⟨hstale, P, c, hgrows⟩
  · intro u hu hugone v hv hvgone huv Q d R e hQ hR x hxQ hxR
    rcases hout u hugone with hugone | rfl
    · rcases hout v hvgone with hvgone | rfl
      · exact h.apart u hu hugone v hv hvgone huv Q d R e hQ hR x hxQ hxR
      · rw [(hR.unique hgrows).1] at hxR
        exact hdisjoint u hu hugone Q d hQ x hxR hxQ
    · rw [(hQ.unique hgrows).1] at hxQ
      exact hdisjoint v hv (((hout v hvgone).resolve_right (Ne.symm huv))) R e hR x hxQ hxR
  · obtain ⟨m', hm', hfirst⟩ : ∃ m', (bc.cutOff P (t₁ ++ t₂)).getMainTail = some m' ∧ FirstHighest m' (t₁ ++ t₂) :=
      getMainTail_cutOff (List.ne_nil_of_mem hmrest)
    refine ⟨m', hm', le_antisymm ?_ (hfirst.le hmrest)⟩
    exact hhigh m' (h.sub ((hrest m').1 (getMainTail_mem hm')).1)

end Pruned

/-- What stands behind the tails is a tail still, or it is gone. -/
def Remains (bc : Blockchain) (behind : List Block) : Prop := ∀ x ∈ behind, x ∈ bc.tails ∨ bc.Gone x

theorem Tracked.pruned (h : bc.Tracked m ml mapped) : Pruned bc m bc where
  toListed := h.toListed
  genesis := rfl
  map := rfl
  irreversible := rfl
  sub := List.Subset.refl _
  stored_iff _ := ⟨fun hx => ⟨hx, fun _ ht hnot => absurd ht hnot⟩, fun hx => hx.1⟩
  stale _ ht hnot := absurd ht hnot
  apart _ ht hnot := absurd ht hnot
  main := ⟨m, h.mainTail, rfl⟩

section
variable {bc₀ : Blockchain}

/-- What a visit does to a tail. -/
theorem Pruned.visit (h₀ : bc₀.Tracked m ml (m :: ml)) (hhigh : ∀ x ∈ bc₀.tails, x.height ≤ m.height)
    (s : Blockchain × List Block) (h : Pruned bc₀ m s.1) (hbehind : s.1.Remains s.2)
    (ht : t ∈ s.1.tails ++ s.2) :
    (Pruned bc₀ m (pruning.visit s t).1 ∧ (pruning.visit s t).1.Remains (pruning.visit s t).2) ∧
      (pruning.visit s t = s ∧
          (bc₀.Stale t → t ∈ s.1.tails → s.1.isInMainFork t ∨ ¬ (s.1.findCommonAncestor t).isOk) ∨
        bc₀.Stale t ∧ pruning.Takes s (pruning.visit s t) t) := by
  obtain ⟨bc, behind⟩ := s
  dsimp only at h hbehind ht
  have hself : pruning.visit (bc, behind) t =
      if t.height < bc.irreversibleBlock then bc.deleteFork behind t else (bc, behind) := rfl
  by_cases hstale : bc₀.Stale t
  · have hlt : t.height < bc.irreversibleBlock := h.irreversible.symm ▸ hstale
    rw [hself, if_pos hlt]
    by_cases htail : t ∈ bc.tails
    · by_cases hin : bc.isInMainFork t
      · rw [deleteFork_of_mapped hin]
        exact ⟨⟨h, hbehind⟩, .inl ⟨rfl, fun _ _ => .inl hin⟩⟩
      · by_cases hfound : (bc.findCommonAncestor t).isOk
        · obtain ⟨m', hm', hheight⟩ := h.main
          obtain ⟨a, ha⟩ : ∃ a, bc.findCommonAncestor t = .ok a := by
            cases hanc : bc.findCommonAncestor t with
            | error e =>
              rw [hanc] at hfound
              cases hfound
            | ok a => exact ⟨a, rfl⟩
          have h₀' : 0 ≤ m'.height := hheight.symm ▸ h₀.height_nonneg
          obtain ⟨l, hl, -⟩ := h.findCommonAncestor_ok hm' h₀' (h.mapped_main h₀) (.inr (h.chain_main h₀))
            (h.toListed.stored t htail) ha
          obtain ⟨t₁, t₂, b, P, c, s, bc', hsplit, htails, hres, hlast, hcut, hP, hc, hpruned⟩ :=
            h.take h₀ hhigh behind htail hstale hin hfound hl
          have hmap : bc'.mainForkMap = bc.mainForkMap := hpruned.map.trans h.map.symm
          have hP' : ∀ x ∈ P, x ∉ bc'.tails := fun x hx hmem =>
            (hcut.stored_iff.1 (hpruned.toListed.stored x hmem)).2 hx
          rw [hres]
          refine ⟨⟨hpruned, fun x hx => ?_⟩, .inr ⟨hstale, t₁, t₂, b, hsplit, htails, rfl, ?_⟩⟩
          · rcases List.mem_cons.1 hx with rfl | hx
            · rcases hlast with hlast | ⟨-, hxP⟩
              · exact .inl (htails ▸ List.mem_append_right _ (List.mem_of_getLast? hlast))
              · exact .inr (hcut.gone hP hc hmap hxP)
            · rcases hbehind x hx with hx | hx
              · by_cases hxt : x = t
                · exact .inr (hxt ▸ hcut.gone hP hc hmap hcut.mem_head)
                · refine .inl ?_
                  rw [hsplit] at hx
                  rw [htails]
                  simpa [hxt] using hx
              · exact .inr (hcut.gone_of_gone hmap hx)
          · refine hlast.imp id fun hb => ⟨hb.1, fun hbt => hP' b hb.2 ?_⟩
            rw [htails]
            exact List.mem_append_left _ hbt
        · rw [deleteFork_of_not_found hfound]
          exact ⟨⟨h, hbehind⟩, .inl ⟨rfl, fun _ _ => .inr hfound⟩⟩
    · have hgone : bc.Gone t := (hbehind t ((List.mem_append.1 ht).resolve_left htail)).resolve_left htail
      rw [hgone.deleteFork h.toListed]
      exact ⟨⟨h, hbehind⟩, .inl ⟨rfl, fun _ hmem => absurd hmem htail⟩⟩
  · have hlt : ¬ t.height < bc.irreversibleBlock := h.irreversible.symm ▸ hstale
    rw [hself, if_neg hlt]
    exact ⟨⟨h, hbehind⟩, .inl ⟨rfl, fun hstale' => absurd hstale' hstale⟩⟩

/-- The states of the loop. -/
theorem Tracked.body (h₀ : bc₀.Tracked m ml (m :: ml)) (hhigh : ∀ x ∈ bc₀.tails, x.height ≤ m.height) :
    pruning.Body fun s => Pruned bc₀ m s.1 ∧ s.1.Remains s.2 where
  nodup _ h := h.1.nodup
  visit s t h ht := by
    obtain ⟨h', hkeep | htake⟩ := Pruned.visit h₀ hhigh s h.1 h.2 ht
    · refine ⟨h', .inl ?_⟩
      rw [hkeep.1]
      exact ⟨rfl, rfl⟩
    · exact ⟨h', .inr htake.2⟩

/-- What the second loop of `UpdateMainTailIndex` asks of the tails: the main tail `m` is not
    stale, and of the stale ones all ancestors are stored, no two share a block that is not on
    the main chain, and no two are neighbours, the last two apart. -/
structure Prunable (bc : Blockchain) (m : Block) (ml : List Block) : Prop where
  main : ¬ bc.Stale m
  rooted : ∀ t ∈ bc.tails, bc.Stale t → ∃ l, bc.IsChain (t :: l)
  apart : ∀ t ∈ bc.tails, bc.Stale t → ∀ u ∈ bc.tails, bc.Stale u → t ≠ u → ∀ l l', bc.IsChain (t :: l) →
    bc.IsChain (u :: l') → ∀ x ∈ t :: l, x ∈ u :: l' → x ∈ m :: ml
  spread : Spread bc.Stale bc.tails

/-- What grows on the main chain is part of a chain. -/
theorem GrowsOn.chain {P : List Block} {c : Block} (h : bc.GrowsOn t P c) :
    ∃ l, bc.IsChain (t :: l) ∧ P ⊆ t :: l ∧ ∃ s, t :: l = P ++ c :: s := by
  obtain ⟨s, hchain, hhead, -, -⟩ := h
  cases P with
  | nil => cases hhead
  | cons x P =>
    obtain rfl := Option.some.inj hhead
    exact ⟨P ++ c :: s, hchain, fun y hy => List.mem_append_left (c :: s) hy, s, rfl⟩

/-- A block of the chain of a tail is in its fork, or on the main chain. -/
theorem Tracked.mem_fork (h₀ : bc.Tracked m ml (m :: ml)) {P l : List Block} {c : Block} (hgrows : bc.GrowsOn t P c)
    (hl : bc.IsChain (t :: l)) (hx : x ∈ t :: l) : x ∈ P ∨ x ∈ m :: ml := by
  obtain ⟨l', hl', -, s, hsplit⟩ := hgrows.chain
  obtain ⟨-, -, -, -, hc⟩ := hgrows
  obtain rfl : l = l' := LinkTree.Branch.unique hl hl'
  rw [hsplit] at hx hl
  rcases List.mem_append.1 hx with hx | hx
  · exact .inl hx
  · have hcs : bc.IsChain (c :: s) := hl.suffix
    obtain ⟨pre, s', hsplit'⟩ := List.append_of_mem ((h₀.map.isInMainFork_iff h₀.chain (hcs.stored c (by simp))).1 hc)
    obtain rfl : s' = s := LinkTree.Branch.unique (hsplit' ▸ h₀.chain).suffix hcs
    rw [hsplit']
    exact .inr (List.mem_append_right _ hx)

/-- What the loop leaves. -/
theorem Tracked.pruned_pruneTails (h₀ : bc.Tracked m ml (m :: ml)) (hhigh : ∀ x ∈ bc.tails, x.height ≤ m.height) :
    Pruned bc m bc.pruneTails := by
  have hstart : Pruned bc m bc ∧ bc.Remains [] := ⟨h₀.pruned, by simp [Remains]⟩
  have hrun : bc.pruneTails = (pruning.run 0 bc.tails.length (bc, [])).1 := pruneFrom_eq_run _ _ _ _
  rw [hrun]
  exact (Sweep.run_inv (h₀.body hhigh) hstart).1.1

/-- **The loop leaves no stale tail only if** the tails are as it asks. -/
theorem Tracked.prunable (h₀ : bc.Tracked m ml (m :: ml)) (hhigh : ∀ x ∈ bc.tails, x.height ≤ m.height)
    (hclean : ∀ t ∈ bc.pruneTails.tails, ¬ bc.Stale t) : bc.Prunable m ml := by
  have hstart : Pruned bc m bc ∧ bc.Remains [] := ⟨h₀.pruned, by simp [Remains]⟩
  have hrun : bc.pruneTails = (pruning.run 0 bc.tails.length (bc, [])).1 := pruneFrom_eq_run _ _ _ _
  have hpruned := h₀.pruned_pruneTails hhigh
  have hout : ∀ t ∈ bc.tails, bc.Stale t → t ∉ bc.pruneTails.tails := fun t _ hstale hmem => hclean t hmem hstale
  refine ⟨hclean m (hpruned.main_mem h₀), fun t ht hstale => ?_, ?_, ?_⟩
  · obtain ⟨-, P, c, hgrows⟩ := hpruned.stale t ht (hout t ht hstale)
    obtain ⟨l, hl, -⟩ := hgrows.chain
    exact ⟨l, hl⟩
  · intro t ht hstale u hu hstale' htu l l' hl hl' x hx hx'
    obtain ⟨-, P, c, hgrows⟩ := hpruned.stale t ht (hout t ht hstale)
    obtain ⟨-, Q, d, hgrows'⟩ := hpruned.stale u hu (hout u hu hstale')
    by_contra hnot
    have hxP := (h₀.mem_fork hgrows hl hx).resolve_right hnot
    have hxQ := (h₀.mem_fork hgrows' hl' hx').resolve_right hnot
    exact hpruned.apart t ht (hout t ht hstale) u hu (hout u hu hstale') htu P c Q d hgrows hgrows' x hxP hxQ
  · have hclean' : ∀ t ∈ pruning.slice (pruning.run 0 bc.tails.length (bc, [])), ¬ bc.Stale t := by
      intro t ht
      exact hclean t (hrun ▸ ht)
    have hbody := h₀.body hhigh
    exact hbody.spread (bc, []) hstart rfl hclean'

/-- A stale tail is taken out where the tails are as the loop asks. -/
theorem Prunable.found (hprunable : bc₀.Prunable m ml) (h₀ : bc₀.Tracked m ml (m :: ml))
    (hhigh : ∀ x ∈ bc₀.tails, x.height ≤ m.height) (h : Pruned bc₀ m bc) (ht : t ∈ bc.tails) (hstale : bc₀.Stale t) :
    ¬ bc.isInMainFork t ∧ (bc.findCommonAncestor t).isOk := by
  have ht₀ : t ∈ bc₀.tails := h.sub ht
  have hnot : ¬ bc₀.isInMainFork t := by
    intro hin
    rcases List.mem_cons.1 ((h₀.map.isInMainFork_iff h₀.chain (h₀.stored t ht₀)).1 hin) with rfl | hmem
    · exact hprunable.main hstale
    · obtain ⟨pre, s, hsplit⟩ := List.append_of_mem hmem
      have hchain : bc₀.IsChain ((m :: pre) ++ t :: s) := by
        rw [List.cons_append, ← hsplit]
        exact h₀.chain
      exact h₀.toListed.not_mem_tails_of_chain hchain (List.cons_ne_nil m pre) ht₀
  rw [h.isInMainFork_eq]
  refine ⟨hnot, ?_⟩
  obtain ⟨l, hl⟩ := hprunable.rooted t ht₀ hstale
  have hl' : bc.IsChain (t :: l) := by
    refine hl.restrict h.genesis fun x hx => (h.stored_iff x).2 ⟨hl.stored x hx, ?_⟩
    intro u hu hgone Q d hgrows hxQ
    obtain ⟨l', hl', hsub, -⟩ := hgrows.chain
    have htu : t ≠ u := fun htu => hgone (htu ▸ ht)
    have hmem := hprunable.apart t ht₀ hstale u hu (h.stale u hu hgone).1 htu l l' hl hl' x hx (hsub hxQ)
    obtain ⟨s, -, -, hQ, -⟩ := hgrows
    exact hQ x hxQ ((h₀.map.isInMainFork_iff h₀.chain (hl.stored x hx)).2 hmem)
  obtain ⟨m', hm', hheight⟩ := h.main
  have hle : ¬ t.height > m'.height := by
    have := hhigh t ht₀
    omega
  obtain ⟨P, c, s, -, -, -, hdescend⟩ :=
    descend_spec (h.chain_main h₀) (h.mapped_main h₀) hl' (hhigh t ht₀)
  rw [findCommonAncestor, hm']
  dsimp only
  rw [levelWith, if_neg hle]
  simp only [bind, Except.bind, hdescend]
  rfl

/-- **The loop leaves no stale tail if** the tails are as it asks. -/
theorem Prunable.clean (hprunable : bc.Prunable m ml) (h₀ : bc.Tracked m ml (m :: ml))
    (hhigh : ∀ x ∈ bc.tails, x.height ≤ m.height) : ∀ t ∈ bc.pruneTails.tails, ¬ bc.Stale t := by
  have hstart : Pruned bc m bc ∧ bc.Remains [] := ⟨h₀.pruned, by simp [Remains]⟩
  have hrun : bc.pruneTails = (pruning.run 0 bc.tails.length (bc, [])).1 := pruneFrom_eq_run _ _ _ _
  have hold : ∀ s x, Pruned bc m s.1 ∧ s.1.Remains s.2 → x ∈ pruning.slice s → bc.Stale x →
      pruning.Takes s (pruning.visit s x) x := by
    intro s x h hx hstale
    obtain ⟨-, hkeep | htake⟩ := Pruned.visit h₀ hhigh s h.1 h.2 (List.mem_append_left _ hx)
    · obtain ⟨hnot, hfound⟩ := hprunable.found h₀ hhigh h.1 hx hstale
      exact absurd (hkeep.2 hstale hx) (not_or.2 ⟨hnot, not_not.2 hfound⟩)
    · exact htake.2
  have hnew : ∀ s x, Pruned bc m s.1 ∧ s.1.Remains s.2 → x ∈ pruning.slice s → ¬ bc.Stale x →
      pruning.Keeps s (pruning.visit s x) := by
    intro s x h hx hnot
    obtain ⟨-, hkeep | htake⟩ := Pruned.visit h₀ hhigh s h.1 h.2 (List.mem_append_left _ hx)
    · rw [hkeep.1]
      exact ⟨rfl, rfl⟩
    · exact absurd htake.1 hnot
  have hbody := h₀.body hhigh
  rw [hrun]
  exact hbody.clean (bc, []) hstart rfl hold hnew hprunable.spread

end

/-! ## `UpdateMainTailIndex` -/

/-- After the call no tail is stale, and those that were not are tails still. -/
structure PrunesStale (bc bc' : Blockchain) : Prop where
  fresh : ∀ t ∈ bc'.tails, ¬ bc'.Stale t
  kept : ∀ t ∈ bc.tails, ¬ bc.Stale t → t ∈ bc'.tails

/-- **`UpdateMainTailIndex` prunes the stale tails** exactly if there are none, or the main tail
    can be moved and the tails are as the loop asks. -/
theorem prunesStale_iff (h : bc.Tracked m ml mapped) : PrunesStale bc bc.updateMainTailIndex.2 ↔
    (∀ t ∈ bc.tails, ¬ bc.Stale t) ∨
      ∃ m' ml', bc.MovesTo m ml m' ∧ bc.IsChain (m' :: ml') ∧ bc.Prunable m' ml' := by
  by_cases hmoves : ∃ m', bc.MovesTo m ml m'
  · obtain ⟨m', hmoves⟩ := hmoves
    obtain ⟨hok, j, map, ml', hmove, h₀⟩ := h.moveMainTail hmoves
    have hsnd : bc.updateMainTailIndex.2 = bc.moveMainTail.pruneTails := by rw [updateMainTailIndex_snd, if_pos hok]
    rw [hsnd]
    rw [hmove] at h₀ ⊢
    set bc₀ : Blockchain := { bc with mainTailIndex := j, mainForkMap := map } with hbc₀
    have hhigh : ∀ x ∈ bc₀.tails, x.height ≤ m'.height := fun x hx => hmoves.le hx
    have hpruned := h₀.pruned_pruneTails hhigh
    have hstale : ∀ t, bc₀.pruneTails.Stale t ↔ bc.Stale t := fun t => by rw [Stale, hpruned.irreversible, Stale]
    have hkept : ∀ t ∈ bc.tails, ¬ bc.Stale t → t ∈ bc₀.pruneTails.tails := fun t ht hfresh => by
      by_contra hnot
      exact hfresh (hpruned.stale t ht hnot).1
    constructor
    · intro hprunes
      have hprunable := h₀.prunable hhigh fun t ht hold => hprunes.fresh t ht ((hstale t).2 hold)
      exact .inr ⟨m', ml', hmoves, h₀.chain, hprunable.main, hprunable.rooted, hprunable.apart, hprunable.spread⟩
    · rintro (hfresh | ⟨m'', ml'', hmoves', hchain, hmain, hrooted, hapart, hspread⟩)
      · exact ⟨fun t ht hold => hfresh t (hpruned.sub ht) ((hstale t).1 hold), hkept⟩
      · obtain rfl := h.moves_unique hmoves hmoves'
        obtain rfl : ml' = ml'' := LinkTree.Branch.unique h₀.chain hchain
        have hprunable : bc₀.Prunable m' ml' := ⟨hmain, hrooted, hapart, hspread⟩
        exact ⟨fun t ht hold => hprunable.clean h₀ hhigh t ht ((hstale t).1 hold), hkept⟩
  · obtain ⟨htails, hirreversible⟩ := h.not_moves hmoves
    have hstale : ∀ t, bc.updateMainTailIndex.2.Stale t ↔ bc.Stale t := fun t => by rw [Stale, hirreversible, Stale]
    constructor
    · intro hprunes
      refine .inl fun t ht hold => ?_
      rw [← htails] at ht
      exact hprunes.fresh t ht ((hstale t).2 hold)
    · rintro (hfresh | ⟨m', ml', hmoves', -⟩)
      · refine ⟨fun t ht hold => ?_, fun t ht _ => ?_⟩
        · rw [htails] at ht
          exact hfresh t ht ((hstale t).1 hold)
        · rw [htails]
          exact ht
      · exact absurd ⟨m', hmoves'⟩ hmoves

/-! ## Three stale tails in a row -/

/-- The chain `g, x, y` is the main one, and `a`, `b` and `c` are tails below the irreversible
    block number. -/
def staleForks : Blockchain :=
  { (((((init.append forkGenesis).2.grow (forkBlock "x" "g" 1)).grow (forkBlock "y" "x" 2)).grow
      (forkBlock "a" "g" 1)).grow (forkBlock "b" "g" 1)).grow (forkBlock "c" "g" 1) with irreversibleBlock := 2 }

theorem reached_staleForks : Reached staleForks := by
  have h₁ : Reached ((init.append forkGenesis).2.grow (forkBlock "x" "g" 1)) :=
    .grow (p := forkGenesis) (.genesis forkGenesis rfl) (by decide) (by decide)
  have h₂ := h₁.grow (b := forkBlock "y" "x" 2) (p := forkBlock "x" "g" 1) (by decide) (by decide)
  have h₃ := h₂.grow (b := forkBlock "a" "g" 1) (p := forkGenesis) (by decide) (by decide)
  have h₄ := h₃.grow (b := forkBlock "b" "g" 1) (p := forkGenesis) (by decide) (by decide)
  exact .irreversible 2 (h₄.grow (b := forkBlock "c" "g" 1) (p := forkGenesis) (by decide) (by decide))

theorem isChain_staleForks : staleForks.IsChain [forkBlock "y" "x" 2, forkBlock "x" "g" 1, forkGenesis] :=
  .grow (by decide) (.grow (by decide) (.root (by decide)))

theorem prunesStale_iff_staleForks : PrunesStale staleForks staleForks.updateMainTailIndex.2 ↔
    (∀ t ∈ staleForks.tails, ¬ staleForks.Stale t) ∨
      ∃ m' ml', staleForks.MovesTo (forkBlock "y" "x" 2) [forkBlock "x" "g" 1, forkGenesis] m' ∧
        staleForks.IsChain (m' :: ml') ∧ staleForks.Prunable m' ml' := by
  obtain ⟨m, ml, mapped, hstanding⟩ := reached_staleForks.standing
  have hmain : staleForks.getMainTail = some (forkBlock "y" "x" 2) := by decide
  obtain rfl : forkBlock "y" "x" 2 = m := Option.some.inj (hmain.symm.trans hstanding.mainTail)
  obtain rfl := LinkTree.Branch.unique isChain_staleForks hstanding.chain
  exact prunesStale_iff hstanding.tracked

/-- The loop does not see `b`. -/
theorem not_prunesStale : ¬ PrunesStale staleForks staleForks.updateMainTailIndex.2 := by
  intro h
  exact h.fresh (forkBlock "b" "g" 1) (by decide) (by decide)

end Blockchain
end Timbre
