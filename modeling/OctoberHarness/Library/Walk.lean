import Mathlib.Tactic

/-! Walks that keep the nodes still to be visited on a stack, and how long they
take on a forest. -/
namespace Walk

open Relation List

variable {α : Type*}

/-- The nodes a walk visits: each time the one pushed last, whose `next` nodes
it then pushes in order. `none` when the fuel runs out first. -/
def visits (next : α → List α) : Nat → List α → Option (List α)
  | _, [] => some []
  | 0, _ :: _ => none
  | fuel + 1, node :: pending => (visits next fuel ((next node).reverse ++ pending)).map (node :: ·)

/-- A walk goes from the first to the second. -/
def Follows (next : α → List α) (a b : α) : Prop := b ∈ next a

abbrev Reaches (next : α → List α) : α → α → Prop := ReflTransGen (Follows next)

/-- A walk that ends has visited what its start reaches, and nothing else. -/
theorem mem_visits {next : α → List α} {fuel : Nat} {pending found : List α}
    (hFound : visits next fuel pending = some found) {node : α} :
    node ∈ found ↔ ∃ start ∈ pending, Reaches next start node := by
  induction fuel generalizing pending found with
  | zero =>
    cases pending with
    | nil => simp [← Option.some.inj hFound]
    | cons head rest => cases hFound
  | succ fuel ih =>
    cases pending with
    | nil => simp [← Option.some.inj hFound]
    | cons head rest =>
      rw [visits, Option.map_eq_some_iff] at hFound
      obtain ⟨later, hLater, rfl⟩ := hFound
      rw [mem_cons, ih hLater]
      constructor
      · rintro (rfl | ⟨start, hStart, hReaches⟩)
        · exact ⟨node, mem_cons_self, .refl⟩
        · rcases mem_append.mp hStart with hNext | hRest
          · exact ⟨head, mem_cons_self, .head (mem_reverse.mp hNext) hReaches⟩
          · exact ⟨start, mem_cons_of_mem _ hRest, hReaches⟩
      · rintro ⟨start, hStart, hReaches⟩
        rcases mem_cons.mp hStart with rfl | hRest
        · rcases ReflTransGen.cases_head hReaches with hEq | ⟨child, hChild, hBelow⟩
          · exact .inl hEq.symm
          · exact .inr ⟨child, mem_append_left _ (mem_reverse.mpr hChild), hBelow⟩
        · exact .inr ⟨start, mem_append_right _ hRest, hReaches⟩

/-! How many steps a walk takes. -/

/-- A forest with nodes in `nodes`: no walk comes back to a node, and two
branches that leave a node never meet. -/
structure Forest (next : α → List α) (nodes : List α) : Prop where
  listed : ∀ {a b}, b ∈ next a → b ∈ nodes
  distinct : ∀ a, (next a).Nodup
  acyclic : ∀ a, ¬ TransGen (Follows next) a a
  apart : ∀ {a b c x}, b ∈ next a → c ∈ next a → Reaches next b x → Reaches next c x → b = c

variable {next : α → List α} {nodes : List α}

theorem Forest.sublist (h : Forest next nodes) {other : α → List α} (hOther : ∀ a, (other a).Sublist (next a)) :
    Forest other nodes := by
  have hFollows : Follows other ≤ Follows next := fun a _ hStep => (hOther a).subset hStep
  exact {
    listed := fun hb => h.listed ((hOther _).subset hb)
    distinct := fun a => (hOther a).nodup (h.distinct a)
    acyclic := fun a hCycle => h.acyclic a (TransGen.mono hFollows _ _ hCycle)
    apart := fun hb hc hx hy => h.apart ((hOther _).subset hb) ((hOther _).subset hc)
      (ReflTransGen.mono hFollows _ _ hx) (ReflTransGen.mono hFollows _ _ hy) }

/-- Two nodes that reach a third one, when each node follows one other at most. -/
theorem reaches_or_reaches (hOne : ∀ {a c b}, b ∈ next a → b ∈ next c → a = c) {b c x : α}
    (hb : Reaches next b x) (hc : Reaches next c x) : Reaches next b c ∨ Reaches next c b := by
  induction hb with
  | refl => exact .inr hc
  | tail hBefore hStep ih =>
    rcases ReflTransGen.cases_tail hc with rfl | ⟨d, hd, hLast⟩
    · exact .inl (hBefore.tail hStep)
    · obtain rfl := hOne hStep hLast
      exact ih hd

theorem Forest.of_parent (hListed : ∀ {a b}, b ∈ next a → b ∈ nodes) (hDistinct : ∀ a, (next a).Nodup)
    (hOne : ∀ {a c b}, b ∈ next a → b ∈ next c → a = c) (hAcyclic : ∀ a, ¬ TransGen (Follows next) a a) :
    Forest next nodes where
  listed := hListed
  distinct := hDistinct
  acyclic := hAcyclic
  apart := by
    have hBelow : ∀ {a b c}, b ∈ next a → c ∈ next a → Reaches next b c → b = c := by
      intro a b c hb hc hReaches
      rcases ReflTransGen.cases_tail hReaches with hEq | ⟨d, hd, hLast⟩
      · exact hEq.symm
      · obtain rfl := hOne hLast hc
        exact (hAcyclic d (TransGen.head' hb hd)).elim
    intro a b c x hb hc hx hy
    rcases reaches_or_reaches hOne hx hy with hReaches | hReaches
    · exact hBelow hb hc hReaches
    · exact (hBelow hc hb hReaches).symm

theorem Forest.of_line (hListed : ∀ {a b}, b ∈ next a → b ∈ nodes) (hLine : ∀ a, (next a).length ≤ 1)
    (hAcyclic : ∀ a, ¬ TransGen (Follows next) a a) : Forest next nodes where
  listed := hListed
  distinct a := by
    match hNext : next a, hLine a with
    | [], _ => simp
    | [_], _ => simp
  acyclic := hAcyclic
  apart {a b c x} hb hc _ _ := by
    match hNext : next a, hLine a with
    | [], _ => simp [hNext] at hb
    | [_], _ => simp_all

section Cost

variable [DecidableEq α]

open scoped Classical in
/-- What lies strictly below a node. -/
noncomputable def below (next : α → List α) (nodes : List α) (node : α) : Finset α :=
  nodes.toFinset.filter fun other => TransGen (Follows next) node other

/-- A bound for the visits of a walk that starts at the node. -/
noncomputable def cost (next : α → List α) (nodes : List α) (node : α) : Nat :=
  (below next nodes node).card + 1

theorem mem_below (h : Forest next nodes) {node other : α} :
    other ∈ below next nodes node ↔ TransGen (Follows next) node other := by
  classical
  rw [below, Finset.mem_filter, mem_toFinset, and_iff_right_iff_imp]
  intro hBelow
  obtain ⟨before, _, hLast⟩ := TransGen.tail'_iff.mp hBelow
  exact h.listed hLast

theorem cost_children (h : Forest next nodes) (node : α) :
    ((next node).map (cost next nodes)).sum + 1 ≤ cost next nodes node := by
  have hSum : ((next node).map (cost next nodes)).sum =
      ∑ child ∈ (next node).toFinset, (insert child (below next nodes child)).card := by
    rw [← sum_toFinset _ (h.distinct node)]
    refine Finset.sum_congr rfl fun child _ => ?_
    rw [Finset.card_insert_of_notMem fun hSelf => h.acyclic child ((mem_below h).mp hSelf)]
    rfl
  have hReaches : ∀ {child other}, other ∈ insert child (below next nodes child) → Reaches next child other := by
    intro child other hOther
    rcases Finset.mem_insert.mp hOther with rfl | hBelow
    · exact .refl
    · exact ((mem_below h).mp hBelow).to_reflTransGen
  have hUnion : ((next node).toFinset.biUnion fun child => insert child (below next nodes child)) ⊆
      below next nodes node := by
    intro other hOther
    obtain ⟨child, hChild, hIn⟩ := Finset.mem_biUnion.mp hOther
    exact (mem_below h).mpr (TransGen.head' (mem_toFinset.mp hChild) (hReaches hIn))
  rw [hSum, cost, ← Finset.card_biUnion]
  · exact Nat.succ_le_succ (Finset.card_le_card hUnion)
  · intro child hChild other hOther hNe
    rw [Function.onFun, Finset.disjoint_left]
    intro x hx hy
    exact hNe (h.apart (mem_toFinset.mp hChild) (mem_toFinset.mp hOther) (hReaches hx) (hReaches hy))

theorem exists_visits_of_cost (h : Forest next nodes) {fuel : Nat} {pending : List α}
    (hFuel : (pending.map (cost next nodes)).sum ≤ fuel) : ∃ found, visits next fuel pending = some found := by
  induction fuel generalizing pending with
  | zero =>
    cases pending with
    | nil => exact ⟨[], rfl⟩
    | cons head rest => simp [cost] at hFuel
  | succ fuel ih =>
    cases pending with
    | nil => exact ⟨[], rfl⟩
    | cons head rest =>
      have hChildren := cost_children h head
      have hLess : (((next head).reverse ++ rest).map (cost next nodes)).sum ≤ fuel := by
        simp only [map_append, sum_append, map_reverse, sum_reverse, map_cons,
          sum_cons] at hFuel ⊢
        omega
      obtain ⟨found, hFound⟩ := ih hLess
      exact ⟨head :: found, by rw [visits, hFound]; rfl⟩

end Cost

/-- In a forest a walk ends, before it has more nodes visited than there are. -/
theorem Forest.exists_visits (h : Forest next nodes) (start : α) :
    ∃ found, visits next (nodes.length + 1) [start] = some found := by
  classical
  apply exists_visits_of_cost h
  have hCard : (below next nodes start).card ≤ nodes.toFinset.card := Finset.card_le_card (Finset.filter_subset _ _)
  have hLength := nodes.toFinset_card_le
  simp only [map_cons, map_nil, sum_cons, sum_nil, cost]
  omega

theorem Forest.mem_visits (h : Forest next nodes) {start node : α} :
    node ∈ (visits next (nodes.length + 1) [start]).getD [] ↔ Reaches next start node := by
  obtain ⟨found, hFound⟩ := h.exists_visits start
  rw [hFound, Option.getD_some, Walk.mem_visits hFound]
  simp

/-! Which walks end. -/

section Ends

variable {next start : α → List α} {nodes pending : List α} {node : α}

/-- Where walks are acyclic, what they follow is well-founded. -/
theorem acc_of_acyclic (hListed : ∀ {a b}, b ∈ next a → b ∈ nodes)
    (hAcyclic : ∀ a, Reaches next node a → ¬ TransGen (Follows next) a a) : Acc (fun b a => Follows next a b) node := by
  let Below := { a // Reaches next node a }
  have hFinite : Finite Below := by
    have hSet : {a | Reaches next node a}.Finite := by
      apply (finite_toSet (node :: nodes)).subset
      intro a hReaches
      rcases ReflTransGen.cases_tail hReaches with rfl | ⟨b, -, hLast⟩
      · exact mem_cons_self
      · exact mem_cons_of_mem _ (hListed hLast)
    exact hSet.to_subtype
  have hIrrefl : Std.Irrefl fun b a : Below => TransGen (Follows next) a.val b.val := ⟨fun a => hAcyclic a.val a.property⟩
  have hTrans : IsTrans Below fun b a => TransGen (Follows next) a.val b.val := ⟨fun _ _ _ hFirst hSecond => hSecond.trans hFirst⟩
  have hWell : WellFounded fun b a : Below => TransGen (Follows next) a.val b.val :=
    Finite.wellFounded_of_trans_of_irrefl _
  have hAcc : ∀ a : Below, Acc (fun b a => Follows next a b) a.val := by
    intro a
    induction a using hWell.induction with
    | _ a ih => exact .intro _ fun b hStep => ih ⟨b, a.property.tail hStep⟩ (.single hStep)
  exact hAcc ⟨node, .refl⟩

variable [DecidableEq α]

/-- A walk that rearranges the nodes it pushes where they stand. -/
def rearranged (sort : List α → List α) : Nat → (α → List α) → List α → Option (α → List α)
  | _, next, [] => some next
  | 0, _, _ :: _ => none
  | fuel + 1, next, node :: pending =>
    rearranged sort fuel (Function.update next node (sort (next node))) ((sort (next node)).reverse ++ pending)

variable {sort : List α → List α} (hSort : ∀ nodes, (sort nodes).Perm nodes)

include hSort

theorem perm_update (h : ∀ a, (next a).Perm (start a)) (node : α) :
    ∀ a, (Function.update next node (sort (next node)) a).Perm (start a) := by
  intro a
  by_cases hNode : a = node
  · rw [hNode, Function.update_self]
    exact (hSort _).trans (h node)
  · rw [Function.update_of_ne hNode]
    exact h a

theorem perm_rearranged (h : ∀ a, (next a).Perm (start a)) {fuel : Nat} {final : α → List α}
    (hFinal : rearranged sort fuel next pending = some final) : ∀ a, (final a).Perm (start a) := by
  induction fuel generalizing next pending with
  | zero =>
    cases pending with
    | nil => exact Option.some.inj hFinal ▸ h
    | cons head rest => cases hFinal
  | succ fuel ih =>
    cases pending with
    | nil => exact Option.some.inj hFinal ▸ h
    | cons head rest => exact ih (perm_update hSort h head) hFinal

/-- A walk that comes above a cycle stays above it. -/
theorem rearranged_endless (h : ∀ a, (next a).Perm (start a)) (hCycle : TransGen (Follows start) node node) {first : α}
    (hFirst : first ∈ pending) (hReaches : Reaches start first node) (fuel : Nat) :
    rearranged sort fuel next pending = none := by
  induction fuel generalizing next pending first with
  | zero =>
    cases pending with
    | nil => cases hFirst
    | cons head rest => rfl
  | succ fuel ih =>
    cases pending with
    | nil => cases hFirst
    | cons head rest =>
      rcases mem_cons.mp hFirst with rfl | hRest
      · have hPath : TransGen (Follows start) first node := by
          rcases reflTransGen_iff_eq_or_transGen.mp hReaches with rfl | hPath
          · exact hCycle
          · exact hPath
        obtain ⟨child, hChild, hBelow⟩ := TransGen.head'_iff.mp hPath
        have hPushed : child ∈ sort (next first) := (hSort _).mem_iff.mpr ((h first).mem_iff.mpr hChild)
        exact ih (perm_update hSort h first) (mem_append_left _ (mem_reverse.mpr hPushed)) hBelow
      · exact ih (perm_update hSort h head) (mem_append_right _ hRest) hReaches

/-- A walk with a well-founded node more ends when it ended without the node. -/
theorem rearranged_ends (hAcc : Acc (fun b a => Follows start a b) node)
    (hRest : ∀ next : α → List α, (∀ a, (next a).Perm (start a)) → ∃ fuel final, rearranged sort fuel next pending = some final)
    (h : ∀ a, (next a).Perm (start a)) : ∃ fuel final, rearranged sort fuel next (node :: pending) = some final := by
  induction hAcc generalizing pending next with
  | intro node _ ih =>
    have hPushed : ∀ pushed : List α, (∀ child ∈ pushed, child ∈ start node) → ∀ next : α → List α,
        (∀ a, (next a).Perm (start a)) → ∃ fuel final, rearranged sort fuel next (pushed ++ pending) = some final := by
      intro pushed hMem
      induction pushed with
      | nil => exact hRest
      | cons child rest ihRest =>
        intro next hNext
        exact ih child (hMem child mem_cons_self)
          (ihRest fun other hOther => hMem other (mem_cons_of_mem _ hOther)) hNext
    have hChildren : ∀ child ∈ (sort (next node)).reverse, child ∈ start node := by
      intro child hChild
      exact (h node).mem_iff.mp ((hSort _).mem_iff.mp (mem_reverse.mp hChild))
    obtain ⟨fuel, final, hFinal⟩ := hPushed _ hChildren _ (perm_update hSort h node)
    exact ⟨fuel + 1, final, hFinal⟩

/-- A walk ends when no cycle lies below where it starts, and only then. -/
theorem rearranged_ends_iff (hListed : ∀ {a b}, b ∈ next a → b ∈ nodes) :
    (∃ fuel final, rearranged sort fuel next pending = some final) ↔
      ∀ first ∈ pending, ∀ a, Reaches next first a → ¬ TransGen (Follows next) a a := by
  constructor
  · rintro ⟨fuel, final, hFinal⟩ first hFirst a hReaches hCycle
    rw [rearranged_endless hSort (fun _ => .refl _) hCycle hFirst hReaches] at hFinal
    cases hFinal
  · intro hAcyclic
    have hEnds : ∀ other : α → List α, (∀ a, (other a).Perm (next a)) →
        ∃ fuel final, rearranged sort fuel other pending = some final := by
      induction pending with
      | nil => exact fun other _ => ⟨0, other, rfl⟩
      | cons head rest ih =>
        intro other hOther
        exact rearranged_ends hSort (acc_of_acyclic hListed (hAcyclic head mem_cons_self))
          (ih fun first hFirst => hAcyclic first (mem_cons_of_mem _ hFirst)) hOther
    exact hEnds next fun _ => .refl _

omit hSort

theorem visits_isSome (next : α → List α) (fuel : Nat) (pending : List α) :
    (visits next fuel pending).isSome = (rearranged id fuel next pending).isSome := by
  induction fuel generalizing pending with
  | zero => cases pending <;> rfl
  | succ fuel ih =>
    cases pending with
    | nil => rfl
    | cons head rest =>
      rw [visits, rearranged, Option.isSome_map, ih, id, Function.update_eq_self]

omit [DecidableEq α] in
theorem visits_ends_iff (hListed : ∀ {a b}, b ∈ next a → b ∈ nodes) :
    (∃ fuel found, visits next fuel pending = some found) ↔
      ∀ first ∈ pending, ∀ a, Reaches next first a → ¬ TransGen (Follows next) a a := by
  classical
  rw [← @rearranged_ends_iff _ next nodes pending _ id (fun _ => .refl _) hListed]
  simp only [← Option.isSome_iff_exists, visits_isSome]

end Ends

end Walk
