import Kcs.Ir.Execution

/-!
# The list of blocks of a function

The optimizer puts the blocks that can be reached by jumps into a list, depth first.  Entries of
jump tables are not followed.

Main results:

- Theorem {lit}`serializeBasicBlocks_isSome`: the recursion ends.
- Theorem {lit}`serializeBasicBlocks_listed`: the list holds the blocks that can be reached.
-/

namespace Kcs

open Option List

/-! ## Edges -/

/-- The jumps of a block that are followed: there is no second one without a first one. -/
def Block.edges (blk : Block) : List BlockId :=
  match blk.jump0, blk.jump1 with
  | none, _ => []
  | some x, none => [x]
  | some x, some y => [x, y]

/-- A graph as it is built: jumps lead to blocks, and a block that selects from a table does not
jump. -/
structure Graph.Valid (g : Graph) : Prop where
  edges : ∀ blk ∈ g, ∀ c ∈ blk.edges, c < g.length
  table : ∀ blk ∈ g, blk.hasJumpTable = true → blk.jump0 = none

/-- Jumps lead from one block to another. -/
def Follows (g : Graph) : BlockId → BlockId → Prop :=
  Relation.ReflTransGen fun b c => ∃ blk, g[b]? = some blk ∧ c ∈ blk.edges

/-! ## Serialization -/

/-- `serialize_basic_blocks`, with a bound on the depth.  The blocks in the list are black. -/
def serializeBasicBlocks (g : Graph) : Nat → BlockId → List BlockId → Option (List BlockId)
  | 0, _, _ => none
  | fuel + 1, block, blocklist =>
    if block ∈ blocklist then some blocklist
    else
      (g[block]?).bind fun blk =>
        match blk.jump0, blk.jump1 with
        | none, _ => some (blocklist ++ [block])
        | some x, none => serializeBasicBlocks g fuel x (blocklist ++ [block])
        | some x, some y =>
          (serializeBasicBlocks g fuel x (blocklist ++ [block])).bind
            (serializeBasicBlocks g fuel y)

section Serialize

variable {g : Graph} {fuel : Nat} {b c : BlockId} {roots roots' l l' l'' : List BlockId}
  {blk : Block}

theorem exists_getElem?_of_lt (hlt : b < g.length) : ∃ blk, g[b]? = some blk :=
  ⟨_, getElem?_eq_getElem hlt⟩

theorem serializeBasicBlocks_succ (hnew : b ∉ l) (hblk : g[b]? = some blk) :
    serializeBasicBlocks g (fuel + 1) b l =
      blk.edges.foldlM (fun l c => serializeBasicBlocks g fuel c l) (l ++ [b]) := by
  rw [serializeBasicBlocks, if_neg hnew, hblk, bind_some, Block.edges]
  cases blk.jump0 with
  | none => rfl
  | some x =>
    cases blk.jump1 with
    | none => simp
    | some y => simp [bind_eq_bind]

/-- What a part of the recursion adds to the list. -/
structure Listed (g : Graph) (roots l l' : List BlockId) : Prop where
  sub : l ⊆ l'
  met : ∀ b ∈ roots, b ∈ l'
  closed : ∀ c ∈ l', c ∉ l → ∃ blk, g[c]? = some blk ∧ ∀ d ∈ blk.edges, d ∈ l'
  reachable : ∀ c ∈ l', c ∉ l → ∃ b ∈ roots, Follows g b c

theorem Listed.refl (g : Graph) (l : List BlockId) : Listed g [] l l where
  sub := Subset.refl l
  met := fun _ hb => nomatch hb
  closed := fun _ hc hnew => absurd hc hnew
  reachable := fun _ hc hnew => absurd hc hnew

theorem Listed.trans (h : Listed g roots l l') (h' : Listed g roots' l' l'') :
    Listed g (roots ++ roots') l l'' where
  sub := Subset.trans h.sub h'.sub
  met := by
    intro b hb
    rcases mem_append.mp hb with hb | hb
    · exact h'.sub (h.met b hb)
    · exact h'.met b hb
  closed := by
    intro c hc hnew
    by_cases hmid : c ∈ l'
    · rcases h.closed c hmid hnew with ⟨blk, hblk, hedges⟩
      exact ⟨blk, hblk, fun d hd => h'.sub (hedges d hd)⟩
    · exact h'.closed c hc hmid
  reachable := by
    intro c hc hnew
    by_cases hmid : c ∈ l'
    · rcases h.reachable c hmid hnew with ⟨b, hb, hreach⟩
      exact ⟨b, mem_append_left _ hb, hreach⟩
    · rcases h'.reachable c hc hmid with ⟨b, hb, hreach⟩
      exact ⟨b, mem_append_right _ hb, hreach⟩

theorem Listed.foldlM {f : List BlockId → BlockId → Option (List BlockId)}
    {bs l l' : List BlockId} (hf : ∀ b l l', f l b = some l' → Listed g [b] l l') (h : bs.foldlM f l = some l') :
    Listed g bs l l' := by
  induction bs generalizing l with
  | nil => exact some.inj h ▸ Listed.refl g l
  | cons b bs ih =>
    rw [foldlM_cons] at h
    rcases bind_eq_some_iff.mp h with ⟨l1, h1, hrest⟩
    exact (hf b l l1 h1).trans (ih hrest)

/-- The list is extended by the blocks that are reached, with all that they jump to. -/
theorem serializeBasicBlocks_listed (h : serializeBasicBlocks g fuel b l = some l') :
    Listed g [b] l l' := by
  induction fuel generalizing b l l' with
  | zero => cases h
  | succ fuel ih =>
    by_cases hold : b ∈ l
    · rw [serializeBasicBlocks, if_pos hold] at h
      cases h
      exact ⟨Subset.refl l, fun c hc => mem_singleton.mp hc ▸ hold,
        fun c hc hnew => absurd hc hnew, fun c hc hnew => absurd hc hnew⟩
    · cases hblk : g[b]? with
      | none =>
        rw [serializeBasicBlocks, if_neg hold, hblk] at h
        cases h
      | some blk =>
        rw [serializeBasicBlocks_succ hold hblk] at h
        have hrest : Listed g blk.edges (l ++ [b]) l' := Listed.foldlM (fun _ _ _ h => ih h) h
        have hb : b ∈ l' := hrest.sub (mem_append_right l (mem_singleton_self b))
        have hself : ∀ c, c ∉ l → c ∉ l ++ [b] ∨ c = b := by
          intro c hc
          by_cases hcb : c = b
          · exact Or.inr hcb
          · exact Or.inl (by simp [hc, hcb])
        refine ⟨Subset.trans (subset_append_left l [b]) hrest.sub,
          fun c hc => mem_singleton.mp hc ▸ hb, fun c hc hnew => ?_, fun c hc hnew => ?_⟩
        · rcases hself c hnew with hnew' | rfl
          · exact hrest.closed c hc hnew'
          · exact ⟨blk, hblk, hrest.met⟩
        · refine ⟨b, mem_singleton_self b, ?_⟩
          rcases hself c hnew with hnew' | rfl
          · rcases hrest.reachable c hc hnew' with ⟨d, hd, hreach⟩
            exact Relation.ReflTransGen.head ⟨blk, hblk, hd⟩ hreach
          · exact Relation.ReflTransGen.refl

theorem foldlM_mono {α β : Type} {f f' : β → α → Option β} {as : List α} {s s' : β}
    (hf : ∀ s a s', f s a = some s' → f' s a = some s') (h : as.foldlM f s = some s') :
    as.foldlM f' s = some s' := by
  induction as generalizing s with
  | nil => exact h
  | cons a as ih =>
    rw [foldlM_cons] at h ⊢
    rcases bind_eq_some_iff.mp h with ⟨s1, h1, hrest⟩
    exact bind_eq_some_iff.mpr ⟨s1, hf s a s1 h1, ih hrest⟩

theorem serializeBasicBlocks_mono {fuel' : Nat} (h : serializeBasicBlocks g fuel b l = some l')
    (hle : fuel ≤ fuel') : serializeBasicBlocks g fuel' b l = some l' := by
  induction fuel generalizing fuel' b l l' with
  | zero => cases h
  | succ fuel ih =>
    cases fuel' with
    | zero => omega
    | succ fuel' =>
      by_cases hold : b ∈ l
      · rw [serializeBasicBlocks, if_pos hold] at h ⊢
        exact h
      · cases hblk : g[b]? with
        | none =>
          rw [serializeBasicBlocks, if_neg hold, hblk] at h
          cases h
        | some blk =>
          rw [serializeBasicBlocks_succ hold hblk] at h ⊢
          exact foldlM_mono (fun _ _ _ h => ih h (by omega)) h

/-- The blocks that are not in the list yet. -/
def unlisted (g : Graph) (l : List BlockId) : Finset Nat := Finset.range g.length \ l.toFinset

theorem unlisted_subset (h : l ⊆ l') : unlisted g l' ⊆ unlisted g l :=
  Finset.sdiff_subset_sdiff (Finset.Subset.refl _) fun _ hb =>
    List.mem_toFinset.mpr (h (List.mem_toFinset.mp hb))

theorem card_unlisted_lt (hlt : b < g.length) (hnew : b ∉ l) :
    (unlisted g (l ++ [b])).card < (unlisted g l).card := by
  refine Finset.card_lt_card ⟨unlisted_subset (subset_append_left l [b]), fun hsub => ?_⟩
  have hmem : b ∈ unlisted g l :=
    Finset.mem_sdiff.mpr ⟨Finset.mem_range.mpr hlt, fun hb => hnew (List.mem_toFinset.mp hb)⟩
  have hold := (Finset.mem_sdiff.mp (hsub hmem)).2
  exact hold (List.mem_toFinset.mpr (mem_append_right l (mem_singleton_self b)))

/-- Each call takes a block that was not in the list, so that the recursion ends. -/
theorem serializeBasicBlocks_isSome (hvalid : g.Valid) (hlt : b < g.length)
    (hfuel : (unlisted g l).card < fuel) : ∃ l', serializeBasicBlocks g fuel b l = some l' := by
  induction fuel generalizing b l with
  | zero => omega
  | succ fuel ih =>
    by_cases hold : b ∈ l
    · exact ⟨l, by rw [serializeBasicBlocks, if_pos hold]⟩
    · rcases exists_getElem?_of_lt hlt with ⟨blk, hblk⟩
      have hedges := hvalid.edges _ (mem_of_getElem? hblk)
      have hcard := card_unlisted_lt hlt hold
      rw [serializeBasicBlocks_succ hold hblk]
      -- The recursion over the edges, from any longer list.
      have hfold : ∀ (bs l1 : List BlockId), (∀ c ∈ bs, c < g.length) →
          (unlisted g l1).card < fuel →
          ∃ l', bs.foldlM (fun l c => serializeBasicBlocks g fuel c l) l1 = some l' := by
        intro bs
        induction bs with
        | nil => exact fun l1 _ _ => ⟨l1, rfl⟩
        | cons c bs ihbs =>
          intro l1 hbs hl1
          rw [forall_mem_cons] at hbs
          rcases ih hbs.1 hl1 with ⟨l2, hl2⟩
          have hsub := (serializeBasicBlocks_listed hl2).sub
          have hcard2 := Finset.card_le_card (unlisted_subset (g := g) hsub)
          rcases ihbs l2 hbs.2 (by omega) with ⟨l', hl'⟩
          refine ⟨l', ?_⟩
          rw [foldlM_cons, hl2]
          exact hl'
      exact hfold blk.edges (l ++ [b]) hedges (by omega)

end Serialize

end Kcs
