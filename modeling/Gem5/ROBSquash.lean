/-
# A squash of the reorder buffer

One call of `doSquash` moves the iterator towards the head and marks what it passes
(`Thread.doSquash_spec`).  While a squash is under way, the instructions behind the iterator
that are younger than the squashed sequence number are marked (`Thread.Squashing`).
-/
import Gem5.ROB

open List Option

namespace ROB

variable {numThreads : ℕ}

namespace Thread

variable (node : ℕ × DynInst numThreads)

/-- What the squash does to an instruction it passes. -/
def squashNode : ℕ × DynInst numThreads :=
  (node.1, node.2.setSquashed.setCanCommit)

/-- The instructions younger than the squashed one are marked, the others are as before. -/
def mark (squashNum : ℕ) (node : ℕ × DynInst numThreads) : ℕ × DynInst numThreads :=
  if squashNum < node.2.seqNum then squashNode node else node

variable {s : ℕ} {nodes : List (ℕ × DynInst numThreads)} {w : SquashLoop numThreads}

theorem map_mark_of_lt
    (h : ∀ node ∈ nodes, s < node.2.seqNum) : nodes.map (mark s) = nodes.map squashNode :=
  map_congr_left fun node hnode => if_pos (h node hnode)

theorem map_mark_of_le (h : ∀ node ∈ nodes, node.2.seqNum ≤ s) : nodes.map (mark s) = nodes := by
  conv_rhs => rw [← map_id nodes]
  exact map_congr_left fun node hnode => if_neg (Nat.not_lt.mpr (h node hnode))

/-! ## One call of `doSquash` -/

/-- Where the loop stops when it started at the last of `walk`, with `post` behind it: it
passed `mid`, or everything up to the head. -/
inductive Walked (s num : ℕ) (walk post : List (ℕ × DynInst numThreads)) :
    SquashLoop numThreads → Prop
  | head (w : SquashLoop numThreads) (hreached : w.reachedHead = true)
      (hnodes : w.instList.nodes = walk.map squashNode ++ post)
      (hlt : ∀ node ∈ walk, s < node.2.seqNum) : Walked s num walk post w
  | mid (w : SquashLoop numThreads) (hreached : w.reachedHead = false)
      (pre mid : List (ℕ × DynInst numThreads)) (it : ℕ) (inst : DynInst numThreads)
      (hwalk : walk = pre ++ (it, inst) :: mid) (hit : w.squashIt = some it)
      (hnodes : w.instList.nodes = pre ++ (it, inst) :: (mid.map squashNode ++ post))
      (hlt : ∀ node ∈ mid, s < node.2.seqNum)
      (hmoved : mid = [] → num = 0 ∨ inst.seqNum ≤ s) : Walked s num walk post w

variable {num : ℕ} {walk post : List (ℕ × DynInst numThreads)} {pre : List (ℕ × DynInst numThreads)}

/-- The walk goes on from the instruction before. -/
theorem Walked.step {node : ℕ × DynInst numThreads} (hnode : s < node.2.seqNum)
    (h : Walked s num walk (squashNode node :: post) w) :
    Walked s (num + 1) (walk ++ [node]) post w := by
  cases h with
  | head hreached hnodes hlt =>
    refine .head w hreached ?_ ?_
    · rw [hnodes, map_append, append_assoc, map_singleton, singleton_append]
    · exact forall_mem_append.mpr ⟨hlt, forall_mem_singleton.mpr hnode⟩
  | mid hreached pre mid it inst hwalk hit hnodes hlt hmoved =>
    refine .mid w hreached pre (mid ++ [node]) it inst ?_ hit ?_ ?_ ?_
    · rw [hwalk, append_assoc, cons_append]
    · rw [hnodes, map_append, append_assoc, map_singleton, singleton_append]
    · exact forall_mem_append.mpr ⟨hlt, forall_mem_singleton.mpr hnode⟩
    · intro hnil
      exact absurd hnil (append_ne_nil_of_right_ne_nil _ (cons_ne_nil _ _))

variable {inst : DynInst numThreads} {it : ℕ}

theorem squashLoop_spec (s num : ℕ) (hnodes : w.instList.nodes = pre ++ (it, inst) :: post)
    (hit : w.squashIt = some it) (hreached : w.reachedHead = false) :
    ∃ w', squashLoop s num w = some w' ∧ Walked s num (pre ++ [(it, inst)]) post w' := by
  induction num generalizing w pre it inst post with
  | zero =>
    refine ⟨w, rfl, .mid w hreached pre [] it inst rfl hit hnodes (by simp) ?_⟩
    exact fun _ => .inl rfl
  | succ num ih =>
    rw [squashLoop]
    simp only [hit, NodeList.deref_of_nodes hnodes, bind_some]
    by_cases hlt : s < inst.seqNum
    · obtain ⟨instList, hmodify, hnodes'⟩ :=
        NodeList.modify_eq hnodes fun inst => inst.setSquashed.setCanCommit
      rw [if_pos hlt, hmodify, bind_some]
      rcases eq_nil_or_concat pre with rfl | ⟨pre, ⟨before, inst'⟩, rfl⟩
      · rw [if_pos ((NodeList.first_eq_iff hnodes').mpr rfl)]
        refine ⟨_, rfl, .head _ rfl hnodes' ?_⟩
        intro node hnode
        rw [mem_singleton.mp hnode]
        exact hlt
      · rw [concat_eq_append] at hnodes' ⊢
        have hfirst : instList.first ≠ some it := by
          rw [Ne, NodeList.first_eq_iff hnodes']
          exact append_ne_nil_of_right_ne_nil _ (cons_ne_nil _ _)
        rw [if_neg hfirst, NodeList.prev_eq hnodes']
        rw [append_assoc] at hnodes'
        obtain ⟨w', hw', hwalked⟩ := ih
          (w := ⟨instList, some before, w.robTailUpdate || instList.last = some it, false⟩)
          hnodes' rfl rfl
        exact ⟨w', hw', hwalked.step hlt⟩
    · rw [if_neg hlt]
      refine ⟨w, rfl, .mid w hreached pre [] it inst rfl hit hnodes (by simp) ?_⟩
      exact fun _ => .inr (Nat.le_of_not_lt hlt)

/-- What a call of `doSquash` leaves of a thread with the iterator at the last of `walk`. -/
inductive Squashed (num : ℕ) (t : Thread numThreads) (walk post : List (ℕ × DynInst numThreads)) :
    Thread numThreads → Prop
  | finished (instList : NodeList (DynInst numThreads)) (pre mid : List (ℕ × DynInst numThreads))
      (hwalk : walk = pre ++ mid) (hnodes : instList.nodes = pre ++ (mid.map squashNode ++ post))
      (hlt : ∀ node ∈ mid, t.squashedSeqNum < node.2.seqNum)
      (hle : ∀ node ∈ pre.getLast?, node.2.seqNum ≤ t.squashedSeqNum) :
      Squashed num t walk post
        { t with instList := instList, squashIt := none, doneSquashing := true }
  | running (instList : NodeList (DynInst numThreads)) (pre mid : List (ℕ × DynInst numThreads))
      (it : ℕ) (inst : DynInst numThreads) (hwalk : walk = pre ++ (it, inst) :: mid)
      (hnodes : instList.nodes = pre ++ (it, inst) :: (mid.map squashNode ++ post))
      (hlt : ∀ node ∈ mid, t.squashedSeqNum < node.2.seqNum) (hmoved : 0 < num → mid ≠ []) :
      Squashed num t walk post { t with instList := instList, squashIt := some it }

variable {t : Thread numThreads}

theorem doSquash_spec (num : ℕ) (hnodes : t.instList.nodes = pre ++ (it, inst) :: post)
    (hit : t.squashIt = some it) : ∃ t' tailUpdate, t.doSquash num = some (t', tailUpdate) ∧
      Squashed num t (pre ++ [(it, inst)]) post t' := by
  unfold doSquash
  rw [hit, bind_some, NodeList.deref_of_nodes hnodes, bind_some]
  by_cases hstop : inst.seqNum < t.squashedSeqNum
  · rw [if_pos hstop]
    refine ⟨_, _, rfl, .finished t.instList (pre ++ [(it, inst)]) [] (by simp) ?_ (by simp) ?_⟩
    · rw [hnodes, append_assoc, map_nil, nil_append, singleton_append]
    · intro node hnode
      rw [getLast?_concat, mem_some_iff] at hnode
      rw [← hnode]
      exact hstop.le
  · rw [if_neg hstop]
    obtain ⟨w, hw, hwalked⟩ := squashLoop_spec t.squashedSeqNum num
      (w := ⟨t.instList, some it, false, false⟩) hnodes rfl rfl
    rw [hw, bind_some]
    cases hwalked with
    | head hreached hnodes' hlt =>
      simp only [hreached]
      refine ⟨_, _, rfl, .finished w.instList [] _ rfl ?_ hlt (by simp)⟩
      exact hnodes'
    | mid hreached pre' mid it' inst' hwalk hit' hnodes' hlt hmoved =>
      simp only [hreached, hit', bind_some, NodeList.deref_of_nodes hnodes']
      by_cases hle : inst'.seqNum ≤ t.squashedSeqNum
      · rw [if_pos hle]
        refine ⟨_, _, rfl, .finished w.instList (pre' ++ [(it', inst')]) mid ?_ ?_ hlt ?_⟩
        · rw [hwalk, append_assoc, singleton_append]
        · rw [hnodes', append_assoc, singleton_append]
        · intro node hnode
          rw [getLast?_concat, mem_some_iff] at hnode
          rw [← hnode]
          exact hle
      · rw [if_neg hle]
        refine ⟨_, _, rfl, .running w.instList pre' mid it' inst' hwalk hnodes' hlt ?_⟩
        intro hnum hnil
        rcases hmoved hnil with hzero | hstop'
        · omega
        · exact hle hstop'

/-! ## The order of a list -/

/-- The names of the nodes with the sequence numbers of their instructions. -/
def key : ℕ × ℕ := (node.1, node.2.seqNum)

def keys (t : Thread numThreads) : List (ℕ × ℕ) := t.instList.nodes.map key

@[simp] theorem key_squashNode : key (squashNode node) = key node := rfl

theorem Squashed.keys_eq {t' : Thread numThreads} (h : Squashed num t walk post t')
    (hnodes : t.instList.nodes = walk ++ post) : t'.keys = t.keys := by
  unfold keys
  cases h with
  | finished instList pre mid hwalk hnodes' _ _ | running instList pre mid it inst hwalk hnodes' _ _ =>
    simp [hnodes, hwalk, hnodes']

/-- Sequence numbers increase from the head to the tail. -/
def Sorted (nodes : List (ℕ × DynInst numThreads)) : Prop :=
  ((nodes.map key).map Prod.snd).Pairwise (· < ·)

/-- In a sorted list the last instruction is the youngest. -/
theorem Sorted.le_of_getLast (h : Sorted nodes)
    (hlast : ∀ node ∈ nodes.getLast?, node.2.seqNum ≤ s) : ∀ node ∈ nodes, node.2.seqNum ≤ s := by
  rcases eq_nil_or_concat nodes with rfl | ⟨nodes, last, rfl⟩
  · simp
  · rw [concat_eq_append] at h hlast ⊢
    have hle : last.2.seqNum ≤ s := hlast last (by simp)
    unfold Sorted at h
    rw [map_append, map_append, pairwise_append] at h
    intro node hnode
    rcases mem_append.mp hnode with hnode | hnode
    · have hlt : (key node).2 < (key last).2 :=
        h.2.2 _ (mem_map_of_mem (mem_map_of_mem hnode)) _ (by simp)
      exact le_trans hlt.le hle
    · rw [mem_singleton.mp hnode]
      exact hle

theorem Sorted.append_left {nodes' : List (ℕ × DynInst numThreads)}
    (h : Sorted (nodes ++ nodes')) : Sorted nodes :=
  Pairwise.sublist (((sublist_append_left nodes nodes').map key).map Prod.snd) h

/-! ## A squash under way -/

/-- A squash up to `s` of a list that would now be `nodes` without it: it is over, or fewer
than `left` instructions are before the iterator. -/
inductive Squashing (s : ℕ) (nodes : List (ℕ × DynInst numThreads)) (left : ℕ)
    (t : Thread numThreads) : Prop
  | finished (hdone : t.doneSquashing = true) (hit : t.squashIt = none)
      (hnodes : t.instList.nodes = nodes.map (mark s)) : Squashing s nodes left t
  | running (hdone : t.doneSquashing = false) (hnum : t.squashedSeqNum = s)
      (pre post : List (ℕ × DynInst numThreads)) (it : ℕ) (inst : DynInst numThreads)
      (hit : t.squashIt = some it) (heq : nodes = pre ++ (it, inst) :: post)
      (hnodes : t.instList.nodes = pre ++ (it, inst) :: post.map (mark s))
      (hlt : ∀ node ∈ post, s < node.2.seqNum) (hleft : pre.length < left) :
      Squashing s nodes left t

/-- A call of `doSquash` gets nearer to the head or ends the squash. -/
theorem Squashing.doSquash {left : ℕ} (h : Squashing s nodes left t) (hsorted : Sorted nodes)
    (hnum : 0 < num) (hrunning : t.doneSquashing = false) :
    ∃ t' tailUpdate, t.doSquash num = some (t', tailUpdate) ∧ Squashing s nodes (left - 1) t' := by
  cases h with
  | finished hdone _ _ =>
    rw [hdone] at hrunning
    cases hrunning
  | running _ hs pre post it inst hit heq hnodes hlt hleft =>
    obtain ⟨t', tailUpdate, ht', hsquashed⟩ := doSquash_spec num hnodes hit
    refine ⟨t', tailUpdate, ht', ?_⟩
    have hnodesWalk : nodes = (pre ++ [(it, inst)]) ++ post := by
      rw [heq, append_assoc, singleton_append]
    cases hsquashed with
    | finished instList pre' mid hwalk hnodes' hltMid hle =>
      rw [hs] at hltMid hle
      have hpre : ∀ node ∈ pre', node.2.seqNum ≤ s := by
        apply Sorted.le_of_getLast _ hle
        rw [hnodesWalk, hwalk] at hsorted
        exact hsorted.append_left.append_left
      refine .finished rfl rfl ?_
      rw [hnodesWalk, hwalk, map_append, map_append, map_mark_of_le hpre,
        map_mark_of_lt hltMid, append_assoc]
      exact hnodes'
    | running instList pre' mid it' inst' hwalk hnodes' hltMid hmoved =>
      rw [hs] at hltMid
      refine .running hrunning hs pre' (mid ++ post) it' inst' rfl ?_ ?_ ?_ ?_
      · rw [hnodesWalk, hwalk, append_assoc, cons_append]
      · rw [map_append, map_mark_of_lt hltMid]
        exact hnodes'
      · intro node hnode
        rcases mem_append.mp hnode with hnode | hnode
        · exact hltMid node hnode
        · exact hlt node hnode
      · have hlength := congrArg length hwalk
        have hpos := length_pos_of_ne_nil (hmoved hnum)
        simp only [length_append, length_cons, length_nil] at hlength
        omega

/-- The first call, from the tail of the list. -/
theorem squash_begins (hsorted : Sorted t.instList.nodes)
    (hnum : 0 < num) (hentries : t.threadEntries ≠ 0) (hnonempty : t.instList.nodes ≠ []) :
    ∃ t' tailUpdate, t.squash num s = some (t', tailUpdate) ∧
      Squashing s t.instList.nodes (t.instList.nodes.length - 1) t' := by
  obtain ⟨pre, ⟨it, inst⟩, hnodes⟩ := (eq_nil_or_concat t.instList.nodes).resolve_left hnonempty
  rw [concat_eq_append] at hnodes
  have hlast : t.instList.last = some it := by
    rw [NodeList.last, hnodes, getLast?_concat, map_some]
  unfold squash
  simp only [if_neg hentries, hlast]
  refine Squashing.doSquash (.running rfl rfl pre [] it inst rfl hnodes hnodes (by simp) ?_)
    hsorted hnum rfl
  rw [hnodes, length_append]
  exact Nat.lt_add_one _

end Thread

end ROB
