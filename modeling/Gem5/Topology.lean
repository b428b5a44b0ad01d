/-
# Routing tables of Ruby networks

`mem/ruby/network/Topology.cc`.  The weights of the links between `n` switches give, for each
virtual network, the matrix of distances (`extendShortestPath`: relaxation through every
third switch until nothing changes) and with it the links that lie on a shortest path
(`linkIsShortestPathToNode`).  A missing link has the weight `INFINITE_LATENCY`.
-/
import Gem5.Run
import Gem5.ShortestPath

open List Option

namespace Topology

open ShortestPath

variable {n vnets : ℕ}

def infiniteLatency : ℕ := 10000

/-- The matrices of one virtual network. -/
structure Tables (n : ℕ) where
  dist : Fin n → Fin n → ℕ
  latencies : Fin n → Fin n → ℤ
  interSwitches : Fin n → Fin n → ℤ

/-- The variables of the loop over the switches between `i` and `j`. -/
structure Relaxation (n : ℕ) where
  minimum : ℕ
  intermediateSwitch : Option (Fin n)
  interSwitches : Fin n → Fin n → ℤ

def relaxVia (dist : Fin n → Fin n → ℕ) (i j : Fin n) (r : Relaxation n) (k : Fin n) :
    Relaxation n :=
  if min r.minimum (dist i k + dist k j) ≠ r.minimum then
    { minimum := min r.minimum (dist i k + dist k j)
      intermediateSwitch := some k
      interSwitches := setEntry r.interSwitches i j
        (r.interSwitches i k + r.interSwitches k j + 1) }
  else r

/-- The body of the two outer loops: the tables, and whether there was a change.  `none` where
the assertion on `intermediate_switch` fails. -/
def relaxPair (state : Tables n × Bool) (pair : Fin n × Fin n) : Option (Tables n × Bool) :=
  let (t, change) := state
  let (i, j) := pair
  let r := (List.finRange n).foldl (relaxVia t.dist i j) ⟨t.dist i j, none, t.interSwitches⟩
  if t.dist i j ≠ r.minimum then
    r.intermediateSwitch.map fun k =>
      ({ dist := setEntry t.dist i j r.minimum
         latencies := setEntry t.latencies i j (t.latencies i k + t.latencies k j)
         interSwitches := r.interSwitches }, true)
  else some ({ t with interSwitches := r.interSwitches }, change)

/-- One round of the `while` loop. -/
def relaxAll (t : Tables n) : Option (Tables n × Bool) :=
  runSteps relaxPair (t, false) (List.finRange n ×ˢ List.finRange n)

/-- The `while` loop, `fuel` rounds at most. -/
def extendVnet : ℕ → Tables n → Option (Tables n)
  | 0, _ => none
  | fuel + 1, t =>
    (relaxAll t).bind fun (t, change) => if change then extendVnet fuel t else some t

/-- Each virtual network in turn. -/
def extendShortestPath (fuel : ℕ) (tables : Fin vnets → Tables n) : Option (Fin vnets → Tables n) :=
  runSteps (fun tables v => (extendVnet fuel (tables v)).map (Function.update tables v)) tables
    (List.finRange vnets)

/-- `link v i j` is the weight of the link from `i` to `j` for virtual network `v`. -/
def topologyWeights (link : Fin vnets → Fin n → Fin n → Option ℕ) (v : Fin vnets) :
    Fin n → Fin n → ℕ :=
  complete (link v) infiniteLatency

def linkIsShortestPathToNode (src next final : Fin n) (weights dist : Fin n → Fin n → ℕ) : Bool :=
  weights src next + dist next final == dist src final

/-- The links `createLinks` makes. -/
def realLink (weights : Fin n → Fin n → ℕ) (i j : Fin n) : Bool :=
  decide (0 < weights i j) && decide (weights i j ≠ infiniteLatency)

/-! ## One relaxation -/

section Relax

variable {dist : Fin n → Fin n → ℕ} {i j : Fin n} {r : Relaxation n}

/-- The minimum is the old entry, or the sum at the switch that is remembered. -/
def Found (dist : Fin n → Fin n → ℕ) (i j : Fin n) (r : Relaxation n) : Prop :=
  r.minimum = dist i j ∨ ∃ k, r.intermediateSwitch = some k ∧ r.minimum = dist i k + dist k j

theorem relaxVia_minimum (r : Relaxation n) (k : Fin n) :
    (relaxVia dist i j r k).minimum = min r.minimum (dist i k + dist k j) := by
  unfold relaxVia
  split
  · rfl
  · next heq => exact (not_not.mp heq).symm

theorem Found.relaxVia (h : Found dist i j r) (k : Fin n) :
    Found dist i j (relaxVia dist i j r k) := by
  unfold Topology.relaxVia
  split
  · next hne =>
    refine .inr ⟨k, rfl, ?_⟩
    rcases min_choice r.minimum (dist i k + dist k j) with heq | heq
    · exact absurd heq hne
    · exact heq
  · exact h

/-- The loop over `k` finds the least sum. -/
theorem foldl_relaxVia (ks : List (Fin n)) (h : Found dist i j r) :
    (ks.foldl (relaxVia dist i j) r).minimum ≤ r.minimum ∧
      (∀ k ∈ ks, (ks.foldl (relaxVia dist i j) r).minimum ≤ dist i k + dist k j) ∧
      Found dist i j (ks.foldl (relaxVia dist i j) r) := by
  induction ks generalizing r with
  | nil => exact ⟨le_rfl, by simp, h⟩
  | cons k ks ih =>
    obtain ⟨hle, hall, hfound⟩ := ih (h.relaxVia k)
    rw [relaxVia_minimum] at hle
    refine ⟨hle.trans (min_le_left _ _), ?_, hfound⟩
    intro k' hk'
    rcases mem_cons.mp hk' with rfl | hk'
    · exact hle.trans (min_le_right _ _)
    · exact hall k' hk'

/-- The pair is relaxed through some switch, or there was nothing to relax. -/
theorem relaxPair_cases (t : Tables n) (change : Bool) (i j : Fin n) :
    ∃ t', (∃ k, t.dist i k + t.dist k j < t.dist i j ∧
        relaxPair (t, change) (i, j) = some (t', true) ∧
        t'.dist = setEntry t.dist i j (t.dist i k + t.dist k j)) ∨
      ((∀ k, t.dist i j ≤ t.dist i k + t.dist k j) ∧
        relaxPair (t, change) (i, j) = some (t', change) ∧ t'.dist = t.dist) := by
  obtain ⟨hle, hall, hfound⟩ := foldl_relaxVia (finRange n)
    (r := ⟨t.dist i j, none, t.interSwitches⟩) (.inl rfl : Found t.dist i j _)
  unfold relaxPair
  simp only
  generalize (finRange n).foldl (relaxVia t.dist i j) ⟨t.dist i j, none, t.interSwitches⟩ = r
    at hle hall hfound ⊢
  by_cases hsame : t.dist i j = r.minimum
  · rw [if_neg (not_not.mpr hsame)]
    refine ⟨_, .inr ⟨fun k => ?_, rfl, rfl⟩⟩
    rw [hsame]
    exact hall k (mem_finRange k)
  · rw [if_pos hsame]
    obtain ⟨k, hk, hmin⟩ := hfound.resolve_left (Ne.symm hsame)
    refine ⟨_, .inl ⟨k, ?_, by rw [hk, map_some], ?_⟩⟩
    · rw [← hmin]
      exact lt_of_le_of_ne hle (Ne.symm hsame)
    · rw [← hmin]

end Relax

/-! ## The loops -/

section Loops

variable {W : Fin n → Fin n → ℕ} {fuel : ℕ}

/-- The sum of all distances, which each change makes smaller. -/
def total (t : Tables n) : ℕ := ∑ i, ∑ j, t.dist i j

/-- A round keeps the matrix sound; it has changed it and made the sum smaller, or there was
nothing to relax. -/
theorem runSteps_relaxPair (pairs : List (Fin n × Fin n)) (t : Tables n) (change : Bool)
    (ht : Sound W t.dist) :
    ∃ t' change', runSteps relaxPair (t, change) pairs = some (t', change') ∧
      Sound W t'.dist ∧ total t' ≤ total t ∧ (change' = true → change = true ∨ total t' < total t) ∧
      (change' = false → change = false ∧ t'.dist = t.dist ∧
        ∀ pair ∈ pairs, ∀ k, t.dist pair.1 pair.2 ≤ t.dist pair.1 k + t.dist k pair.2) := by
  induction pairs generalizing t change with
  | nil => exact ⟨t, change, rfl, ht, le_rfl, .inl, fun h => ⟨h, rfl, by simp⟩⟩
  | cons pair pairs ih =>
    obtain ⟨i, j⟩ := pair
    obtain ⟨t1, ⟨k, hlt, hstep, hdist⟩ | ⟨hall, hstep, hdist⟩⟩ := relaxPair_cases t change i j
    · have hsum : total t1 < total t := by
        unfold total
        rw [hdist]
        exact sum_setEntry_lt hlt
      obtain ⟨t', change', hrun, hsound, hle, -, hfixed⟩ := ih t1 true (by
        rw [hdist]
        exact ht.relax hlt)
      refine ⟨t', change', ?_, hsound, hle.trans hsum.le, ?_, ?_⟩
      · rw [runSteps_cons, hstep, bind_some, hrun]
      · exact fun _ => .inr (hle.trans_lt hsum)
      · intro hchange
        cases (hfixed hchange).1
    · have hsum : total t1 = total t := by
        unfold total
        rw [hdist]
      obtain ⟨t', change', hrun, hsound, hle, hsmaller, hfixed⟩ := ih t1 change (by
        rw [hdist]
        exact ht)
      rw [hsum] at hle hsmaller
      refine ⟨t', change', ?_, hsound, hle, hsmaller, ?_⟩
      · rw [runSteps_cons, hstep, bind_some, hrun]
      · intro hchange
        obtain ⟨hold, hsame, hrest⟩ := hfixed hchange
        rw [hdist] at hsame hrest
        exact ⟨hold, hsame, forall_mem_cons.mpr ⟨hall, hrest⟩⟩

/-- With a round for each unit of the sum the loop ends, and nothing is left to relax. -/
theorem extendVnet_spec {t : Tables n} (ht : Sound W t.dist) (hfuel : total t < fuel) :
    ∃ t', extendVnet fuel t = some t' ∧ Sound W t'.dist ∧
      ∀ i k j, t'.dist i j ≤ t'.dist i k + t'.dist k j := by
  induction fuel generalizing t with
  | zero => exact absurd hfuel (Nat.not_lt_zero _)
  | succ fuel ih =>
    obtain ⟨t', change, hrun, hsound, -, hsmaller, hfixed⟩ := runSteps_relaxPair
      (finRange n ×ˢ finRange n) t false ht
    rw [extendVnet, relaxAll, hrun]
    cases change with
    | true =>
      have hlt := (hsmaller rfl).resolve_left Bool.false_ne_true
      exact ih hsound (by omega)
    | false =>
      obtain ⟨-, hsame, htriangle⟩ := hfixed rfl
      refine ⟨t', rfl, hsound, ?_⟩
      intro i k j
      rw [hsame]
      refine htriangle (i, j) ?_ k
      exact mem_product.mpr ⟨mem_finRange i, mem_finRange j⟩

/-- The virtual networks do not touch each other's tables. -/
theorem extendShortestPath_spec {tables : Fin vnets → Tables n}
    (h : ∀ v, ∃ t, extendVnet fuel (tables v) = some t) :
    ∃ tables', extendShortestPath fuel tables = some tables' ∧
      ∀ v, extendVnet fuel (tables v) = some (tables' v) := by
  choose result hresult using h
  refine ⟨result, ?_, hresult⟩
  have hrun : ∀ (vs : List (Fin vnets)) (current : Fin vnets → Tables n), vs.Nodup →
      (∀ v ∈ vs, current v = tables v) →
      runSteps (fun tables v => (extendVnet fuel (tables v)).map (Function.update tables v)) current vs =
        some fun v => if v ∈ vs then result v else current v := by
    intro vs
    induction vs with
    | nil => intro current _ _; simp
    | cons v vs ih =>
      intro current hnodup hcurrent
      rw [nodup_cons] at hnodup
      rw [runSteps_cons, hcurrent v mem_cons_self, hresult v, map_some, bind_some, ih _ hnodup.2]
      · congr 1
        funext v'
        by_cases heq : v' = v
        · subst heq
          simp
        · simp [heq]
      · intro v' hv'
        have hne : v' ≠ v := by
          rintro rfl
          exact hnodup.1 hv'
        rw [Function.update_of_ne hne, hcurrent v' (mem_cons_of_mem _ hv')]
  rw [extendShortestPath, hrun _ tables (nodup_finRange vnets) fun _ _ => rfl]
  simp

end Loops

/-! ## Routes -/

/-- A link that `createLinks` makes and marks for the destination. -/
def Hop (weights dist : Fin n → Fin n → ℕ) (final src next : Fin n) : Prop :=
  realLink weights src next = true ∧ linkIsShortestPathToNode src next final weights dist = true

section Routes

variable {link : Fin n → Fin n → Option ℕ} {dist : Fin n → Fin n → ℕ} {src next final : Fin n}
  {weights : Fin n → Fin n → ℕ} {route : List (Fin n)}

/-- A link on a shortest path leads closer to the destination. -/
theorem Hop.dist_lt (h : Hop weights dist final src next) : dist next final < dist src final := by
  obtain ⟨hreal, hshortest⟩ := h
  unfold realLink at hreal
  unfold linkIsShortestPathToNode at hshortest
  rw [Bool.and_eq_true, decide_eq_true_eq] at hreal
  rw [beq_iff_eq] at hshortest
  omega

theorem exists_hop (hdist : ∀ i j, IsDist link infiniteLatency i j (dist i j))
    (hpos : ∀ i j w, link i j = some w → 0 < w) (hlt : dist src final < infiniteLatency)
    (hne : dist src final ≠ 0) :
    ∃ next, Hop (complete link infiniteLatency) dist final src next := by
  have hnotFinal : src ≠ final := by
    rintro rfl
    exact hne (Nat.le_zero.mp ((hdist src src).le_path 0 (.nil src)))
  obtain ⟨next, w, hlink, hsum⟩ := exists_link_of_dist hdist hlt hnotFinal
  have hw := hpos src next w hlink
  refine ⟨next, ?_, ?_⟩
  · unfold realLink
    rw [complete_of_link hlink, Bool.and_eq_true, decide_eq_true_eq, decide_eq_true_eq]
    exact ⟨hw, by omega⟩
  · unfold linkIsShortestPathToNode
    rw [complete_of_link hlink, beq_iff_eq]
    exact hsum

/-- Distances fall along a route, so no switch comes twice. -/
theorem dist_lt_of_route (hroute : route.IsChain (Hop weights dist final)) :
    route.Pairwise fun a b => dist b final < dist a final := by
  exact (hroute.imp fun _ _ hop => hop.dist_lt).pairwise

theorem length_le_of_route (hroute : (src :: route).IsChain (Hop weights dist final)) :
    route.length ≤ dist src final := by
  induction route generalizing src with
  | nil => exact Nat.zero_le _
  | cons next route ih =>
    rw [isChain_cons_cons] at hroute
    have hlt := hroute.1.dist_lt
    have hle := ih hroute.2
    rw [length_cons]
    omega

/-- A route that has not arrived can go on. -/
theorem exists_next_of_route (hdist : ∀ i j, IsDist link infiniteLatency i j (dist i j))
    (hpos : ∀ i j w, link i j = some w → 0 < w) (hlt : dist src final < infiniteLatency)
    (hroute : (src :: route).IsChain (Hop (complete link infiniteLatency) dist final))
    (hlast : (src :: route).getLast? ≠ some final) :
    ∃ next, (src :: route ++ [next]).IsChain (Hop (complete link infiniteLatency) dist final) := by
  have hpairwise := dist_lt_of_route hroute
  obtain ⟨pre, last, hpre⟩ : ∃ pre last, src :: route = pre ++ [last] :=
    ⟨_, _, (dropLast_append_getLast (cons_ne_nil src route)).symm⟩
  have hle : dist last final ≤ dist src final := by
    have hmem : last ∈ src :: route := by
      rw [hpre]
      exact mem_append_right _ mem_cons_self
    rcases mem_cons.mp hmem with rfl | hmem
    · exact le_rfl
    · exact ((pairwise_cons.mp hpairwise).1 last hmem).le
  have hne : dist last final ≠ 0 := by
    intro hzero
    obtain rfl := eq_of_dist_eq_zero hdist hpos (by decide) hzero
    rw [hpre, getLast?_concat] at hlast
    exact hlast rfl
  obtain ⟨next, hop⟩ := exists_hop hdist hpos (hle.trans_lt hlt) hne
  refine ⟨next, isChain_append.mpr ⟨hroute, isChain_singleton _, ?_⟩⟩
  intro x hx y hy
  rw [hpre, getLast?_concat, mem_some_iff] at hx
  rw [head?_cons, mem_some_iff] at hy
  rw [← hx, ← hy]
  exact hop

end Routes

/-- For links of at most the infinite weight and none of a positive weight from a switch to
itself, the loops end with the capped weights of the shortest paths.  If all weights are
positive, a switch that can reach a destination has a link marked for it, every such link leads
closer, and a route along such links visits no switch twice, is bounded by the distance, and
can go on until it arrives. -/
theorem routing_shortest (link : Fin vnets → Fin n → Fin n → Option ℕ)
    (hcap : ∀ v i j w, link v i j = some w → w ≤ infiniteLatency)
    (hself : ∀ v i w, link v i i = some w → w = 0)
    (latencies interSwitches : Fin vnets → Fin n → Fin n → ℤ) :
    ∃ fuel tables, extendShortestPath fuel
        (fun v => ⟨topologyWeights link v, latencies v, interSwitches v⟩) = some tables ∧
      (∀ v i j, IsDist (link v) infiniteLatency i j ((tables v).dist i j)) ∧
      ∀ v, (∀ i j w, link v i j = some w → 0 < w) →
        (∀ src final, (tables v).dist src final < infiniteLatency → (tables v).dist src final ≠ 0 →
          ∃ next, Hop (topologyWeights link v) (tables v).dist final src next) ∧
        (∀ src next final, Hop (topologyWeights link v) (tables v).dist final src next →
          (tables v).dist next final < (tables v).dist src final) ∧
        (∀ src final route, (tables v).dist src final < infiniteLatency →
          (src :: route).IsChain (Hop (topologyWeights link v) (tables v).dist final) →
          (src :: route).Nodup ∧ route.length ≤ (tables v).dist src final ∧
          ((src :: route).getLast? ≠ some final → ∃ next, (src :: route ++ [next]).IsChain
            (Hop (topologyWeights link v) (tables v).dist final))) := by
  have hspec : ∀ v, ∃ t, extendVnet
      (∑ v, total (⟨topologyWeights link v, latencies v, interSwitches v⟩ : Tables n) + 1)
      ⟨topologyWeights link v, latencies v, interSwitches v⟩ = some t ∧
      Sound (topologyWeights link v) t.dist ∧ ∀ i k j, t.dist i j ≤ t.dist i k + t.dist k j := by
    intro v
    refine extendVnet_spec (sound_self (topologyWeights link v)) (Nat.lt_succ_of_le ?_)
    exact Finset.single_le_sum
      (f := fun v => total (⟨topologyWeights link v, latencies v, interSwitches v⟩ : Tables n))
      (fun _ _ => Nat.zero_le _) (Finset.mem_univ v)
  obtain ⟨tables, hrun, htables⟩ := extendShortestPath_spec fun v => (hspec v).imp fun _ h => h.1
  have hdist : ∀ v i j, IsDist (link v) infiniteLatency i j ((tables v).dist i j) := by
    intro v i j
    obtain ⟨t, ht, hsound, htriangle⟩ := hspec v
    obtain rfl := some.inj (ht.symm.trans (htables v))
    exact isDist_of_walk (hcap v) (hsound.walk i j)
      fun w hwalk => hsound.le_walk (complete_self (hself v)) htriangle hwalk
  refine ⟨_, tables, hrun, hdist, ?_⟩
  intro v hpos
  refine ⟨fun src final hlt hne => exists_hop (hdist v) hpos hlt hne,
    fun src next final hop => hop.dist_lt, ?_⟩
  intro src final route hlt hroute
  refine ⟨?_, length_le_of_route hroute, exists_next_of_route (hdist v) hpos hlt hroute⟩
  exact (dist_lt_of_route hroute).imp fun hlt heq => absurd hlt (by rw [heq]; exact lt_irrefl _)

/-- Three switches in a row. -/
def line (_ : Fin 1) (i j : Fin 3) : Option ℕ := if i.val + 1 = j.val then some 1 else none

theorem routing_shortest_line :
    ∃ fuel tables, extendShortestPath fuel
        (fun v => ⟨topologyWeights line v, fun _ _ => 0, fun _ _ => 0⟩) = some tables ∧
      (∀ v i j, IsDist (line v) infiniteLatency i j ((tables v).dist i j)) ∧
      ∀ src final, (tables 0).dist src final < infiniteLatency → (tables 0).dist src final ≠ 0 →
        ∃ next, Hop (topologyWeights line 0) (tables 0).dist final src next := by
  obtain ⟨fuel, tables, hrun, hdist, hroutes⟩ := routing_shortest line (by decide) (by decide)
    (fun _ _ _ => 0) fun _ _ _ => 0
  exact ⟨fuel, tables, hrun, hdist, (hroutes 0 (by decide)).1⟩

attribute [local instance] neZero_two

/-- Two switches with a link of weight 20000 from the first to the second, and one of weight 5
from the second to itself. -/
def heavy (_ : Fin 1) (i j : Fin 2) : Option ℕ :=
  if j = 1 then some (if i = 0 then 20000 else 5) else none

/-- The first distance is not capped, and the second one is not 0. -/
theorem heavy_not_capped :
    ∃ tables, extendShortestPath 2
        (fun v => ⟨topologyWeights heavy v, fun _ _ => 0, fun _ _ => 0⟩) = some tables ∧
      (tables 0).dist 0 1 = 20000 ∧ (tables 0).dist 1 1 = 5 ∧
      ¬ IsDist (heavy 0) infiniteLatency 0 1 ((tables 0).dist 0 1) ∧
      ¬ IsDist (heavy 0) infiniteLatency 1 1 ((tables 0).dist 1 1) := by
  refine ⟨_, rfl, by decide +kernel, by decide +kernel, fun h => ?_, fun h => ?_⟩
  · exact absurd h.le_cap (by decide +kernel)
  · exact absurd (h.le_path 0 (.nil 1)) (by decide +kernel)

end Topology
