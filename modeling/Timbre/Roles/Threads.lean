/-
  Threads: the base of a node that says which posts belong to a thread, and the cache of its user.

  A post may stand in several deals.  A root post that comes again begins its thread anew, and a reply
  that comes again is listed again.  **A thread has the replies that came after the last time of its root,
  in their order** (`threadBase_iff`).  **After a complete fetch a thread is read whole exactly if it has
  no more posts than the cache has room for** (`readsWhole_iff`).
-/
import Timbre.Storage.LRU

namespace Timbre
namespace Threads

open Storage

/-- A hash, as its hexadecimal text. -/
abbrev HexHash := String

/-! ## The base -/

/-- `pb.SignedPostInfo`, as far as the base looks at it: the hash of the info, and the root of its thread. -/
structure SignedPostInfo where
  infoHash : HexHash
  threadHeadPostHash : HexHash
deriving DecidableEq

def SignedPostInfo.isRoot (post : SignedPostInfo) : Prop := post.threadHeadPostHash = ""

instance decidableIsRoot (post : SignedPostInfo) : Decidable post.isRoot :=
  inferInstanceAs (Decidable (post.threadHeadPostHash = ""))

/-- `ThreadBaseMap`: the replies of a thread under the hash of its root. -/
abbrev ThreadBase := HexHash → Option (List HexHash)

/-- One post of a deal. -/
def ThreadBase.store (base : ThreadBase) (post : SignedPostInfo) : ThreadBase :=
  if post.isRoot then Function.update base post.infoHash (some [])
  else match base post.threadHeadPostHash with
    | none => base
    | some posts => Function.update base post.threadHeadPostHash (some (posts ++ [post.infoHash]))

/-- `UpdateThreadBase`, on the deals of a block. -/
def ThreadBase.updateThreadBase (base : ThreadBase) (deals : List (List SignedPostInfo)) : ThreadBase :=
  deals.foldl (fun base posts => posts.foldl store base) base

/-- The post is a reply in the thread `h`. -/
def SignedPostInfo.RepliesTo (post : SignedPostInfo) (h : HexHash) : Prop :=
  ¬ post.isRoot ∧ post.threadHeadPostHash = h

instance decidableRepliesTo (post : SignedPostInfo) (h : HexHash) : Decidable (post.RepliesTo h) :=
  inferInstanceAs (Decidable (¬ post.isRoot ∧ post.threadHeadPostHash = h))

/-- The post is the root of the thread `h`. -/
def SignedPostInfo.Begins (post : SignedPostInfo) (h : HexHash) : Prop := post.isRoot ∧ post.infoHash = h

/-- The replies in a thread, in their order. -/
def replies (h : HexHash) (posts : List SignedPostInfo) : List HexHash :=
  (posts.filter (·.RepliesTo h)).map SignedPostInfo.infoHash

variable {base : ThreadBase} {post : SignedPostInfo} {posts : List SignedPostInfo} {h : HexHash} {rs : List HexHash}

theorem store_begins (hpost : post.Begins h) : base.store post h = some [] := by
  rw [ThreadBase.store, if_pos hpost.1, hpost.2, Function.update_self]

theorem store_repliesTo (hpost : post.RepliesTo h) : base.store post h = (base h).map (· ++ [post.infoHash]) := by
  rw [ThreadBase.store, if_neg hpost.1, hpost.2]
  cases hbase : base h with
  | none => exact hbase
  | some posts => exact Function.update_self _ _ _

theorem store_other (hbegins : ¬ post.Begins h) (hreplies : ¬ post.RepliesTo h) : base.store post h = base h := by
  unfold ThreadBase.store
  by_cases hroot : post.isRoot
  · rw [if_pos hroot, Function.update_of_ne fun heq => hbegins ⟨hroot, heq.symm⟩]
  · rw [if_neg hroot]
    cases base post.threadHeadPostHash with
    | none => rfl
    | some posts => exact Function.update_of_ne (fun heq => hreplies ⟨hroot, heq.symm⟩) _ _

/-- The posts have come in this order, and the thread `h` has begun with one of them and has these replies. -/
def Lists (posts : List SignedPostInfo) (h : HexHash) (rs : List HexHash) : Prop :=
  ∃ before root after, posts = before ++ root :: after ∧ root.Begins h ∧ (∀ p ∈ after, ¬ p.Begins h) ∧
    rs = replies h after

theorem replies_append (xs ys : List SignedPostInfo) : replies h (xs ++ ys) = replies h xs ++ replies h ys := by
  simp [replies]

/-- **One more post.** -/
theorem lists_append : Lists (posts ++ [post]) h rs ↔
    post.Begins h ∧ rs = [] ∨ ¬ post.Begins h ∧ ∃ rs', Lists posts h rs' ∧ rs = rs' ++ replies h [post] := by
  constructor
  · rintro ⟨before, root, after, hsplit, hroot, hafter, rfl⟩
    rcases List.eq_nil_or_concat after with rfl | ⟨after', x, rfl⟩
    · obtain ⟨-, hlast⟩ := List.append_inj' hsplit rfl
      obtain rfl : post = root := by simpa using hlast
      exact .inl ⟨hroot, rfl⟩
    · rw [List.concat_eq_append] at hsplit hafter ⊢
      have hsplit' : posts ++ [post] = (before ++ root :: after') ++ [x] := by simpa using hsplit
      obtain ⟨rfl, hlast⟩ := List.append_inj' hsplit' rfl
      obtain rfl : post = x := by simpa using hlast
      refine .inr ⟨hafter post (by simp), replies h after', ⟨before, root, after', rfl, hroot, ?_, rfl⟩, ?_⟩
      · exact fun p hp => hafter p (List.mem_append_left _ hp)
      · exact replies_append _ _
  · rintro (⟨hpost, rfl⟩ | ⟨hpost, rs', ⟨before, root, after, rfl, hroot, hafter, rfl⟩, rfl⟩)
    · exact ⟨posts, post, [], by simp, hpost, by simp, rfl⟩
    · refine ⟨before, root, after ++ [post], by simp, hroot, fun p hp => ?_, (replies_append _ _).symm⟩
      rcases List.mem_append.1 hp with hp | hp
      · exact hafter p hp
      · rwa [List.mem_singleton.1 hp]

/-- The posts of a list have been stored one after the other. -/
theorem foldl_store_iff : posts.foldl ThreadBase.store (fun _ => none) h = some rs ↔ Lists posts h rs := by
  induction posts using List.reverseRecOn generalizing rs with
  | nil =>
    refine iff_of_false (by simp) ?_
    rintro ⟨before, root, after, hnil, -⟩
    simp at hnil
  | append_singleton posts post ih =>
    rw [List.foldl_append, List.foldl_cons, List.foldl_nil, lists_append]
    by_cases hbegins : post.Begins h
    · rw [store_begins hbegins]
      simp only [hbegins, true_and, not_true, false_and, or_false, Option.some.injEq, eq_comm]
    · simp only [hbegins, false_and, not_false_iff, true_and, false_or]
      by_cases hreplies : post.RepliesTo h
      · have hone : replies h [post] = [post.infoHash] := by simp [replies, hreplies]
        rw [store_repliesTo hreplies, hone, Option.map_eq_some_iff]
        constructor
        · rintro ⟨rs', hrs', rfl⟩
          exact ⟨rs', ih.1 hrs', rfl⟩
        · rintro ⟨rs', hrs', rfl⟩
          exact ⟨rs', ih.2 hrs', rfl⟩
      · have hnone : replies h [post] = [] := by simp [replies, hreplies]
        rw [store_other hbegins hreplies, hnone, ih]
        simp

/-- **The base after a run of blocks**: a thread is in it exactly if its root has come, and has the
    replies that have come since the last time. -/
theorem threadBase_iff (blocks : List (List (List SignedPostInfo))) (h : HexHash) (rs : List HexHash) :
    blocks.foldl ThreadBase.updateThreadBase (fun _ => none) h = some rs ↔
      ∃ before root after, blocks.flatten.flatten = before ++ root :: after ∧ root.Begins h ∧
        (∀ p ∈ after, ¬ p.Begins h) ∧ rs = replies h after := by
  have hfold : blocks.foldl ThreadBase.updateThreadBase (fun _ => none) =
      blocks.flatten.flatten.foldl ThreadBase.store fun _ => none := by
    rw [List.foldl_flatten, List.foldl_flatten]
    rfl
  rw [hfold]
  exact foldl_store_iff

/-! ## The posts of a user -/

/-- `pb.StoredPost`. -/
structure StoredPost where
  hash : HexHash
  content : String
  parentHash : HexHash
  threadHeadHash : HexHash
  timestamp : Int64
  likes : Int64
deriving DecidableEq

/-- `rpcpb.Post`. -/
structure Post where
  hash : HexHash
  content : String
  parentHash : HexHash
  rootThreadHash : HexHash
  timestamp : Int64
  likes : UInt32
deriving DecidableEq

/-- `ToRPCPost`. -/
def StoredPost.toRPCPost (post : StoredPost) : Post where
  hash := post.hash
  content := post.content
  parentHash := post.parentHash
  rootThreadHash := post.threadHeadHash
  timestamp := post.timestamp
  likes := post.likes.toUInt64.toUInt32

/-- `postCache`. -/
abbrev PostCache := LRU HexHash Post

/-- The capacity that `NewUser` gives the cache. -/
def postCacheCapacity : ℤ := 128

/-- `onGetPostContent`. -/
def onGetPostContent (post : StoredPost) : Call PostCache Stop Unit := LRU.add post.hash post.toRPCPost

/-- One round of `GetThread`: whether the post is asked for.  `db` is the bucket of the posts, empty for
    a user who is no storage provider. -/
def getThreadPost (db : HexHash → Option StoredPost) (post : HexHash) : Call PostCache Stop Bool := do
  if (← LRU.get post).isSome then return false
  match db post with
  | some stored =>
    onGetPostContent stored
    return false
  | none => return true

/-- `GetPostFromCache`. -/
def getPostFromCache (key : HexHash) : Call PostCache Stop (Except String Post) := do
  match ← LRU.get key with
  | none => return .error "Can not find post from cache"
  | some post => return .ok post

/-- The loop of `GetThreadFromCache`. -/
def readPosts : List HexHash → Call PostCache Stop (List Post)
  | [] => pure []
  | post :: posts => do
    match ← getPostFromCache post with
    | .error _ => readPosts posts
    | .ok p => return p :: (← readPosts posts)

/-- `GetThreadFromCache`. -/
def ThreadBase.getThreadFromCache (base : ThreadBase) (threadHeadHash : HexHash) :
    Call PostCache Stop (Except String (List Post)) := do
  match base threadHeadHash with
  | none => return .error "Thread does not exist in local store"
  | some posts => return .ok (← readPosts (threadHeadHash :: posts))

/-! ## Fetching a thread -/

/-- `GetThread` under way: the posts it still goes through, and those that others have been asked for. -/
structure Fetching where
  todo : List HexHash
  asked : List HexHash
  cache : PostCache

/-- The answers come in any order, between the rounds and after them. -/
inductive Fetching.Step (db : HexHash → Option StoredPost) : Fetching → Fetching → Prop
  | round {post todo asked cache asks cache'} (h : getThreadPost db post cache = (.ok asks, cache')) :
    Step db ⟨post :: todo, asked, cache⟩ ⟨todo, if asks then post :: asked else asked, cache'⟩
  | answer {post : StoredPost} {todo asked cache cache'} (hasked : post.hash ∈ asked)
    (h : onGetPostContent post cache = (.ok (), cache')) :
    Step db ⟨todo, asked, cache⟩ ⟨todo, asked.erase post.hash, cache'⟩

/-- `GetThread`, up to the last answer. -/
def Fetches (db : HexHash → Option StoredPost) (thread : List HexHash) (cache cache' : PostCache) : Prop :=
  Relation.ReflTransGen (Fetching.Step db) ⟨thread, [], cache⟩ ⟨[], [], cache'⟩

/-- The cache has no more posts than it has room for, each under its hash. -/
structure Tidy (capacity : ℤ) (l : Recency HexHash Post) : Prop where
  room : l.entries.length ≤ capacity
  keyed : ∀ e ∈ l.entries, e.2.hash = e.1

variable {capacity : ℤ} {l : Recency HexHash Post} {cache cache' : PostCache} {db : HexHash → Option StoredPost}
  {thread : List HexHash}

theorem Tidy.touch_keyed (h : Tidy capacity l) {p : Post} : ∀ e ∈ (l.touch p.hash p).entries, e.2.hash = e.1 := by
  intro e he
  rw [Recency.entries_touch, Recency.entries_erase, List.mem_append, List.mem_singleton] at he
  rcases he with he | rfl
  · exact h.keyed e (List.mem_filter.1 he).1
  · rfl

theorem Tidy.find (h : Tidy capacity l) {k : HexHash} {p : Post} (hfind : l.find k = some p) : p.hash = k := by
  obtain ⟨e, he, rfl⟩ := Option.map_eq_some_iff.1 hfind
  have hkey : e.1 = k := by simpa using List.find?_some he
  rw [h.keyed e (List.mem_of_find?_eq_some he), hkey]

theorem Tidy.add (h : Tidy capacity l) (p : Post) : Tidy capacity (l.add capacity p.hash p) := by
  refine ⟨Recency.length_add_le h.room, fun e he => h.touch_keyed (p := p) e ?_⟩
  unfold Recency.add at he
  split_ifs at he
  · exact List.mem_of_mem_tail he
  · exact he

theorem Tidy.use (h : Tidy capacity l) (k : HexHash) : Tidy capacity (l.use k).2 := by
  refine ⟨(Int.ofNat_le.2 (l.length_use_le k)).trans h.room, ?_⟩
  cases hfind : l.find k with
  | none =>
    have huse : l.use k = (none, l) := by rw [Recency.use, hfind]
    rw [huse]
    exact h.keyed
  | some p =>
    have huse : l.use k = (some p, l.touch k p) := by rw [Recency.use, hfind]
    rw [huse, ← h.find hfind]
    exact h.touch_keyed

/-- The posts of the thread that the fetch is through with are the ones used last, if there is room for all. -/
structure Fetched (capacity : ℤ) (thread : List HexHash) (f : Fetching) : Prop where
  todo : ∀ post ∈ f.todo, post ∈ thread
  asked : ∀ post ∈ f.asked, post ∈ thread
  cache : ∃ l K, f.cache.Holds capacity l ∧ Tidy capacity l ∧ K ⊆ thread.toFinset ∧
    (∀ post ∈ thread, post ∈ K ∨ post ∈ f.asked ∨ post ∈ f.todo) ∧
    ((thread.toFinset.card : ℤ) ≤ capacity → l.Recent K)

theorem card_insert_le {K : Finset HexHash} {post : HexHash} (hK : K ⊆ thread.toFinset) (hpost : post ∈ thread)
    (hroom : (thread.toFinset.card : ℤ) ≤ capacity) : ((insert post K).card : ℤ) ≤ capacity :=
  (Int.ofNat_le.2 (Finset.card_le_card (Finset.insert_subset (List.mem_toFinset.2 hpost) hK))).trans hroom

/-- Adding the post with the hash `h` to the cache. -/
theorem add_recent {K : Finset HexHash} (post : StoredPost) (hholds : cache.Holds capacity l)
    (htidy : Tidy capacity l) (hK : K ⊆ thread.toFinset) (hpost : post.hash ∈ thread)
    (hrecent : (thread.toFinset.card : ℤ) ≤ capacity → l.Recent K) :
    ∃ cache' l', onGetPostContent post cache = (.ok (), cache') ∧ cache'.Holds capacity l' ∧ Tidy capacity l' ∧
      ((thread.toFinset.card : ℤ) ≤ capacity → l'.Recent (insert post.hash K)) := by
  obtain ⟨cache', hadd, hholds'⟩ := hholds.add post.hash post.toRPCPost
  refine ⟨cache', _, hadd, hholds', htidy.add post.toRPCPost, fun hroom => ?_⟩
  exact (hrecent hroom).add post.hash post.toRPCPost (card_insert_le hK hpost hroom)

/-- **One step of a fetch.** -/
theorem Fetched.step (hdb : ∀ h post, db h = some post → post.hash = h) {f f' : Fetching}
    (h : Fetched capacity thread f) (hstep : Fetching.Step db f f') : Fetched capacity thread f' := by
  obtain ⟨htodo, hasked, l, K, hholds, htidy, hK, hall, hrecent⟩ := h
  cases hstep with
  | @round post todo asked cache asks cache' hround =>
    have hpost := htodo post List.mem_cons_self
    obtain ⟨cache₁, hget, hholds₁⟩ := hholds.get post
    rw [getThreadPost, Call.bind_of_ok hget] at hround
    cases hfind : l.find post with
    | some p =>
      have huse : l.use post = (some p, l.touch post p) := by rw [Recency.use, hfind]
      have htidy₁ := htidy.use post
      rw [huse] at hround hholds₁ htidy₁
      cases hround
      refine ⟨fun x hx => htodo x (List.mem_cons_of_mem _ hx), hasked, _, insert post K, hholds₁, htidy₁,
        Finset.insert_subset (List.mem_toFinset.2 hpost) hK, fun x hx => ?_,
        fun hroom => (hrecent hroom).touch post p⟩
      rcases hall x hx with hxK | hxasked | hxtodo
      · exact .inl (Finset.mem_insert_of_mem hxK)
      · exact .inr (.inl hxasked)
      · rcases List.mem_cons.1 hxtodo with rfl | hxtodo
        · exact .inl (Finset.mem_insert_self _ _)
        · exact .inr (.inr hxtodo)
    | none =>
      have huse : l.use post = (none, l) := by rw [Recency.use, hfind]
      rw [huse] at hround hholds₁
      cases hstored : db post with
      | none =>
        rw [hstored] at hround
        cases hround
        refine ⟨fun x hx => htodo x (List.mem_cons_of_mem _ hx), fun x hx => ?_, l, K, hholds₁, htidy, hK,
          fun x hx => ?_, hrecent⟩
        · rcases List.mem_cons.1 hx with rfl | hx
          · exact hpost
          · exact hasked x hx
        · rcases hall x hx with hxK | hxasked | hxtodo
          · exact .inl hxK
          · exact .inr (.inl (List.mem_cons_of_mem _ hxasked))
          · rcases List.mem_cons.1 hxtodo with rfl | hxtodo
            · exact .inr (.inl List.mem_cons_self)
            · exact .inr (.inr hxtodo)
      | some stored =>
        rw [hstored] at hround
        obtain rfl := hdb post stored hstored
        obtain ⟨cache₂, l₂, hadd, hholds₂, htidy₂, hrecent₂⟩ := add_recent stored hholds₁ htidy hK hpost hrecent
        simp only [Option.isSome_none, Bool.false_eq_true, if_false] at hround
        rw [Call.bind_of_ok hadd] at hround
        cases hround
        refine ⟨fun x hx => htodo x (List.mem_cons_of_mem _ hx), hasked, l₂, insert stored.hash K, hholds₂, htidy₂,
          Finset.insert_subset (List.mem_toFinset.2 hpost) hK, fun x hx => ?_, hrecent₂⟩
        rcases hall x hx with hxK | hxasked | hxtodo
        · exact .inl (Finset.mem_insert_of_mem hxK)
        · exact .inr (.inl hxasked)
        · rcases List.mem_cons.1 hxtodo with rfl | hxtodo
          · exact .inl (Finset.mem_insert_self _ _)
          · exact .inr (.inr hxtodo)
  | @answer post todo asked cache cache' hmem hanswer =>
    have hpost := hasked post.hash hmem
    obtain ⟨cache₂, l₂, hadd, hholds₂, htidy₂, hrecent₂⟩ := add_recent post hholds htidy hK hpost hrecent
    rw [hadd] at hanswer
    cases hanswer
    refine ⟨htodo, fun x hx => hasked x (List.mem_of_mem_erase hx), l₂, insert post.hash K, hholds₂, htidy₂,
      Finset.insert_subset (List.mem_toFinset.2 hpost) hK, fun x hx => ?_, hrecent₂⟩
    rcases hall x hx with hxK | hxasked | hxtodo
    · exact .inl (Finset.mem_insert_of_mem hxK)
    · by_cases hxp : x = post.hash
      · exact .inl (hxp ▸ Finset.mem_insert_self _ _)
      · exact .inr (.inl ((List.mem_erase_of_ne hxp).2 hxasked))
    · exact .inr (.inr hxtodo)

/-- **A run of steps.** -/
theorem Fetched.run (hdb : ∀ h post, db h = some post → post.hash = h) {f f' : Fetching}
    (h : Fetched capacity thread f) (hrun : Relation.ReflTransGen (Fetching.Step db) f f') :
    Fetched capacity thread f' := by
  induction hrun with
  | refl => exact h
  | tail _ hstep ih => exact ih.step hdb hstep

/-- A round returns, whatever the cache holds. -/
theorem getThreadPost_ok (hholds : cache.Holds capacity l) (post : HexHash) :
    ∃ asks cache' l', getThreadPost db post cache = (.ok asks, cache') ∧ cache'.Holds capacity l' := by
  obtain ⟨cache₁, hget, hholds₁⟩ := hholds.get post
  rw [getThreadPost, Call.bind_of_ok hget]
  split_ifs
  · exact ⟨false, cache₁, _, rfl, hholds₁⟩
  · cases db post with
    | none => exact ⟨true, cache₁, _, rfl, hholds₁⟩
    | some stored =>
      obtain ⟨cache₂, hadd, hholds₂⟩ := hholds₁.add stored.hash stored.toRPCPost
      exact ⟨false, cache₂, _, Call.bind_of_ok hadd, hholds₂⟩

/-- **A fetch comes to its end**, if every post that is asked for is answered. -/
theorem exists_fetches (hholds : cache.Holds capacity l) (thread : List HexHash) :
    ∃ cache', Fetches db thread cache cache' := by
  suffices hrun : ∀ (todo asked : List HexHash) (cache : PostCache) l, cache.Holds capacity l →
      ∃ cache', Relation.ReflTransGen (Fetching.Step db) ⟨todo, asked, cache⟩ ⟨[], [], cache'⟩ from
    hrun thread [] cache l hholds
  intro todo
  induction todo with
  | nil =>
    intro asked
    induction asked with
    | nil => exact fun cache l _ => ⟨cache, .refl⟩
    | cons post asked ih =>
      intro cache l hholds
      let stored : StoredPost := ⟨post, "", "", "", 0, 0⟩
      obtain ⟨cache₁, hadd, hholds₁⟩ := hholds.add post stored.toRPCPost
      obtain ⟨cache', hrest⟩ := ih cache₁ _ hholds₁
      have hstep : Fetching.Step db ⟨[], post :: asked, cache⟩ ⟨[], (post :: asked).erase post, cache₁⟩ :=
        have hmem : stored.hash ∈ post :: asked := List.mem_cons_self
        .answer hmem hadd
      rw [List.erase_cons_head] at hstep
      exact ⟨cache', .head hstep hrest⟩
  | cons post todo ih =>
    intro asked cache l hholds
    obtain ⟨asks, cache₁, l₁, hround, hholds₁⟩ : ∃ asks cache₁ l₁,
        getThreadPost db post cache = (.ok asks, cache₁) ∧ cache₁.Holds capacity l₁ := getThreadPost_ok hholds post
    obtain ⟨cache', hrest⟩ := ih (if asks then post :: asked else asked) cache₁ l₁ hholds₁
    exact ⟨cache', .head (.round hround) hrest⟩

/-- The posts that are read, in the order of the thread. -/
theorem readPosts_eq (hholds : cache.Holds capacity l) (posts : List HexHash) :
    ∃ cache', readPosts posts cache = (.ok (posts.filterMap l.find), cache') := by
  induction posts generalizing cache l with
  | nil => exact ⟨cache, rfl⟩
  | cons post posts ih =>
    obtain ⟨cache₁, hget, hholds₁⟩ := hholds.get post
    obtain ⟨cache₂, hrest⟩ := ih hholds₁
    have hsame : (l.use post).2.find = l.find := funext fun k => Recency.find_use
    rw [hsame] at hrest
    refine ⟨cache₂, ?_⟩
    cases hfind : l.find post with
    | none =>
      have hmiss : getPostFromCache post cache = (.ok (.error "Can not find post from cache"), cache₁) := by
        rw [getPostFromCache, Call.bind_of_ok hget, Recency.use, hfind]
        rfl
      rw [List.filterMap_cons_none (f := fun k => l.find k) hfind]
      exact (Call.bind_of_ok hmiss).trans hrest
    | some p =>
      have hhit : getPostFromCache post cache = (.ok (.ok p), cache₁) := by
        rw [getPostFromCache, Call.bind_of_ok hget, Recency.use, hfind]
        rfl
      rw [List.filterMap_cons_some (f := fun k => l.find k) hfind]
      exact (Call.bind_of_ok hhit).trans (Call.bind_of_ok hrest)

/-- The posts that are read have the hashes of those that are in the cache. -/
theorem Tidy.hashes (h : Tidy capacity l) (posts : List HexHash) :
    (posts.filterMap l.find).map Post.hash = posts.filter fun post => (l.find post).isSome := by
  induction posts with
  | nil => rfl
  | cons post posts ih =>
    cases hfind : l.find post with
    | none =>
      rw [List.filterMap_cons_none (f := fun k => l.find k) hfind, List.filter_cons_of_neg (by simp [hfind]), ih]
    | some p =>
      rw [List.filterMap_cons_some (f := fun k => l.find k) hfind, List.filter_cons_of_pos (by simp [hfind]),
        List.map_cons, h.find hfind, ih]

/-- A cache that has all the posts of a thread has room for them. -/
theorem Tidy.card_le (h : Tidy capacity l) (hall : ∀ post ∈ thread, (l.find post).isSome) :
    (thread.toFinset.card : ℤ) ≤ capacity := by
  have hsubset : thread.toFinset ⊆ l.keys.toFinset := by
    intro post hpost
    have hsome := hall post (List.mem_toFinset.1 hpost)
    by_contra hnot
    rw [List.mem_toFinset, ← Recency.find_eq_none_iff] at hnot
    rw [hnot] at hsome
    cases hsome
  have hlength : l.keys.toFinset.card ≤ l.entries.length := by
    rw [← List.length_map Prod.fst]
    exact List.toFinset_card_le _
  exact (Int.ofNat_le.2 ((Finset.card_le_card hsubset).trans hlength)).trans h.room

/-- **A thread that has been fetched is read whole exactly if the cache has room for its posts**, whatever
    the cache held before and in whatever order the answers come. -/
theorem readsWhole_iff {base : ThreadBase} {head : HexHash} {posts : List HexHash} (hbase : base head = some posts)
    (hdb : ∀ h post, db h = some post → post.hash = h)
    (hcache : ∃ l, cache.Holds capacity l ∧ Tidy capacity l) (hfetch : Fetches db (head :: posts) cache cache') :
    (∃ ps cache'', base.getThreadFromCache head cache' = (.ok (.ok ps), cache'') ∧
      ps.map Post.hash = head :: posts) ↔ ((head :: posts).toFinset.card : ℤ) ≤ capacity := by
  have hfetched : Fetched capacity (head :: posts) ⟨[], [], cache'⟩ := by
    obtain ⟨l, hholds, htidy⟩ := hcache
    have hstart : Fetched capacity (head :: posts) ⟨head :: posts, [], cache⟩ :=
      ⟨fun _ h => h, by simp, l, ∅, hholds, htidy, by simp, fun _ h => .inr (.inr h), fun _ => l.recent_empty⟩
    exact hstart.run hdb hfetch
  obtain ⟨-, -, l, K, hholds, htidy, hK, hall, hrecent⟩ := hfetched
  obtain ⟨cache'', hread⟩ := readPosts_eq hholds (head :: posts)
  have hthread : base.getThreadFromCache head cache' = (.ok (.ok ((head :: posts).filterMap l.find)), cache'') := by
    rw [ThreadBase.getThreadFromCache, hbase]
    exact Call.bind_of_ok hread
  rw [hthread]
  constructor
  · rintro ⟨ps, c, heq, hps⟩
    obtain rfl : (head :: posts).filterMap l.find = ps := by
      simpa using congrArg Prod.fst heq
    rw [htidy.hashes, List.filter_eq_self] at hps
    exact htidy.card_le hps
  · intro hroom
    refine ⟨_, _, rfl, ?_⟩
    rw [htidy.hashes, List.filter_eq_self]
    intro post hpost
    have hmem : post ∈ K := by simpa using hall post hpost
    exact (hrecent hroom).find_isSome hmem

/-- A root and a reply, asked of others by a user with an empty cache. -/
theorem readsWhole_iff_reply : ∃ cache cache', Fetches (fun _ => none) ["r", "a"] cache cache' ∧
    ∃ ps cache'', ThreadBase.getThreadFromCache (fun _ => some ["a"]) "r" cache' = (.ok (.ok ps), cache'') ∧
      ps.map Post.hash = ["r", "a"] := by
  have hcapacity : 1 ≤ postCacheCapacity := by decide
  obtain ⟨cache, -, hholds⟩ := LRU.holds_newLRU (κ := HexHash) (ν := Post) hcapacity
  obtain ⟨cache', hfetch⟩ : ∃ cache', Fetches (fun _ => none) ["r", "a"] cache cache' := exists_fetches hholds _
  have htidy : Tidy postCacheCapacity (.empty : Recency HexHash Post) := ⟨by decide, by simp [Recency.empty]⟩
  exact ⟨cache, cache', hfetch, (readsWhole_iff rfl (by simp) ⟨_, hholds, htidy⟩ hfetch).2 (by decide)⟩

end Threads
end Timbre
