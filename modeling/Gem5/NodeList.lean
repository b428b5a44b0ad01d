/-
# Linked lists with iterators

A doubly linked list whose nodes have names: a name that is kept is an iterator.
Inserting and erasing leave the other nodes where they are, so their iterators stay
valid; the iterator of an erased node is dangling, and its name is not used again.
What is done through a dangling iterator is not defined.
-/
import Mathlib

open List Function Prod

/-- Nodes in order, each with its name, and the name of the next one. -/
structure NodeList (α : Type*) where
  nodes : List (ℕ × α)
  fresh : ℕ
  nodup : (nodes.map Prod.fst).Nodup
  lt_fresh : ∀ node ∈ nodes, node.1 < fresh

namespace NodeList

variable {α : Type*} {i : ℕ}

theorem perm_insert (p : ℕ × α → Bool) (node : ℕ × α) (nodes : List (ℕ × α)) :
    (nodes.takeWhile p ++ node :: nodes.dropWhile p).Perm (node :: nodes) := by
  apply perm_middle.trans
  rw [takeWhile_append_dropWhile]

/-- The node of an iterator and the others. -/
theorem perm_cons_filter {a : α} {nodes : List (ℕ × α)} (hnodup : (nodes.map fst).Nodup)
    (hmem : (i, a) ∈ nodes) : nodes.Perm ((i, a) :: nodes.filter fun node => node.1 ≠ i) := by
  induction nodes with
  | nil => cases hmem
  | cons node nodes ih =>
    rw [map_cons, nodup_cons] at hnodup
    rcases mem_cons.mp hmem with rfl | hmem
    · have hrest : nodes.filter (fun node => node.1 ≠ i) = nodes := by
        rw [filter_eq_self]
        intro node hnode
        apply decide_eq_true
        intro heq
        exact hnodup.1 (mem_map.mpr ⟨node, hnode, heq⟩)
      rw [filter_cons_of_neg (by simp), hrest]
    · have hne : node.1 ≠ i := by
        intro heq
        exact hnodup.1 (mem_map.mpr ⟨(i, a), hmem, heq.symm⟩)
      rw [filter_cons_of_pos (by simpa using hne)]
      exact ((ih hnodup.2 hmem).cons node).trans (Perm.swap _ _ _)

/-! ## Operations -/

def empty : NodeList α := ⟨[], 0, List.nodup_nil, by simp⟩

variable (l : NodeList α)

def items : List α := l.nodes.map Prod.snd

/-- What an iterator points to. -/
def deref (i : ℕ) : Option α := (l.nodes.find? fun node => node.1 = i).map Prod.snd

/-- Insert before the first node with a property, or at the end; the iterator of the new
node is `l.fresh`. -/
def insertWhere (p : ℕ × α → Bool) (a : α) : NodeList α where
  nodes := l.nodes.takeWhile (fun node => !p node) ++
    (l.fresh, a) :: l.nodes.dropWhile fun node => !p node
  fresh := l.fresh + 1
  nodup := by
    rw [((perm_insert _ _ _).map Prod.fst).nodup_iff, List.map_cons, List.nodup_cons]
    refine ⟨?_, l.nodup⟩
    intro hmem
    obtain ⟨node, hnode, heq⟩ := List.mem_map.mp hmem
    exact absurd (l.lt_fresh node hnode) (by rw [heq]; exact lt_irrefl _)
  lt_fresh := by
    intro node hnode
    rcases List.mem_cons.mp ((perm_insert _ _ _).mem_iff.mp hnode) with rfl | hmem
    · exact Nat.lt_succ_self _
    · exact Nat.lt_succ_of_lt (l.lt_fresh node hmem)

def pushBack (a : α) : NodeList α := l.insertWhere (fun _ => false) a

def pushFront (a : α) : NodeList α := l.insertWhere (fun _ => true) a

/-- Unlink the node of an iterator. -/
def erase (i : ℕ) : Option (NodeList α) :=
  if (l.deref i).isSome then
    some
      { nodes := l.nodes.filter fun node => node.1 ≠ i
        fresh := l.fresh
        nodup := l.nodup.sublist (List.filter_sublist.map _)
        lt_fresh := fun node hnode => l.lt_fresh node (List.mem_of_mem_filter hnode) }
  else none

/-- The first node from an iterator on with a property, `none` for the end of the list. -/
def findFrom (i : ℕ) (p : α → Bool) : Option (Option ℕ) :=
  match l.nodes.dropWhile fun node => node.1 ≠ i with
  | [] => none
  | node :: nodes => some (((node :: nodes).find? fun node => p node.2).map Prod.fst)

/-- The iterator of the first node, `none` for the end of an empty list. -/
def first : Option ℕ := l.nodes.head?.map Prod.fst

/-- The iterator of the last node. -/
def last : Option ℕ := l.nodes.getLast?.map Prod.fst

/-- The iterator before; there is none before the first node. -/
def prev (i : ℕ) : Option ℕ :=
  if (l.deref i).isSome then
    (l.nodes.takeWhile fun node => node.1 ≠ i).getLast?.map Prod.fst
  else none

/-- Change the item an iterator points to. -/
def modify (i : ℕ) (f : α → α) : Option (NodeList α) :=
  if (l.deref i).isSome then
    have hnames : (l.nodes.map fun node => if node.1 = i then (node.1, f node.2) else node).map
        Prod.fst = l.nodes.map Prod.fst := by
      rw [List.map_map]
      refine List.map_congr_left fun node _ => ?_
      simp only [Function.comp_apply]
      split <;> rfl
    some
      { nodes := l.nodes.map fun node => if node.1 = i then (node.1, f node.2) else node
        fresh := l.fresh
        nodup := by rw [hnames]; exact l.nodup
        lt_fresh := by
          intro node hnode
          have hname : node.1 ∈ l.nodes.map Prod.fst := by
            rw [← hnames]
            exact List.mem_map_of_mem hnode
          obtain ⟨node', hnode', heq⟩ := List.mem_map.mp hname
          rw [← heq]
          exact l.lt_fresh node' hnode' }
  else none

/-- Move the node of `i` before the node of `pos`, or to the end; a node that is put before
itself stays. -/
def splice (pos : Option ℕ) (i : ℕ) : Option (NodeList α) :=
  if pos = some i then some l
  else
    match h : l.nodes.find? fun node => node.1 = i with
    | none => none
    | some node =>
      let rest := l.nodes.filter fun node => node.1 ≠ i
      have hperm : (rest.takeWhile (fun node => some node.1 ≠ pos) ++
          node :: rest.dropWhile fun node => some node.1 ≠ pos).Perm l.nodes := by
        obtain rfl : node.1 = i := by simpa using List.find?_some h
        exact (perm_insert _ _ _).trans
          (perm_cons_filter l.nodup (List.mem_of_find?_eq_some h)).symm
      some
        { nodes := rest.takeWhile (fun node => some node.1 ≠ pos) ++
            node :: rest.dropWhile fun node => some node.1 ≠ pos
          fresh := l.fresh
          nodup := (hperm.map Prod.fst).nodup_iff.mpr l.nodup
          lt_fresh := fun node hnode => l.lt_fresh node (hperm.mem_iff.mp hnode) }

/-! ## Iterators -/

variable {l} {a : α}

theorem mem_items_of_mem (h : (i, a) ∈ l.nodes) : a ∈ l.items :=
  mem_map_of_mem (f := snd) h

/-- A name belongs to one node. -/
theorem deref_eq_some : l.deref i = some a ↔ (i, a) ∈ l.nodes := by
  rw [deref, Option.map_eq_some_iff]
  constructor
  · rintro ⟨⟨j, b⟩, hfind, rfl⟩
    obtain rfl : j = i := by simpa using find?_some hfind
    exact mem_of_find?_eq_some hfind
  · intro hmem
    obtain ⟨⟨j, b⟩, hfind⟩ : ∃ node, l.nodes.find? (fun node => node.1 = i) = some node :=
      Option.isSome_iff_exists.mp (find?_isSome.mpr ⟨(i, a), hmem, by simp⟩)
    obtain rfl : j = i := by simpa using find?_some hfind
    refine ⟨(j, b), hfind, ?_⟩
    have hinj := inj_on_of_nodup_map l.nodup (mem_of_find?_eq_some hfind) hmem rfl
    exact congrArg snd hinj

@[simp] theorem items_empty : (empty : NodeList α).items = [] := rfl

section Insert

variable {p : ℕ × α → Bool}

theorem items_insertWhere_perm : (l.insertWhere p a).items.Perm (a :: l.items) :=
  (perm_insert _ _ _).map snd

@[simp] theorem mem_items_insertWhere {b : α} :
    b ∈ (l.insertWhere p a).items ↔ b = a ∨ b ∈ l.items := by
  rw [items_insertWhere_perm.mem_iff, mem_cons]

theorem nodup_items_insertWhere (hnew : a ∉ l.items) (hnodup : l.items.Nodup) :
    (l.insertWhere p a).items.Nodup :=
  items_insertWhere_perm.nodup_iff.mpr (nodup_cons.mpr ⟨hnew, hnodup⟩)

@[simp] theorem deref_insertWhere_fresh : (l.insertWhere p a).deref l.fresh = some a :=
  deref_eq_some.mpr ((perm_insert _ _ _).mem_iff.mpr mem_cons_self)

theorem nodes_pushBack : (l.pushBack a).nodes = l.nodes ++ [(l.fresh, a)] := by
  have htake : l.nodes.takeWhile (fun _ => !false) = l.nodes :=
    takeWhile_eq_self_iff.mpr fun _ _ => rfl
  have hdrop : l.nodes.dropWhile (fun _ => !false) = [] := dropWhile_eq_nil_iff.mpr fun _ _ => rfl
  simp only [pushBack, insertWhere]
  rw [htake, hdrop]

theorem items_pushBack : (l.pushBack a).items = l.items ++ [a] := by
  rw [items, nodes_pushBack, map_append, map_singleton, items]

/-- Inserting by a property of the items. -/
theorem items_insertWhere_snd (q : α → Bool) : (l.insertWhere (fun node => q node.2) a).items =
      l.items.takeWhile (fun b => !q b) ++ a :: l.items.dropWhile fun b => !q b := by
  simp [insertWhere, items, takeWhile_map, dropWhile_map, Function.comp_def]

end Insert

/-- Erasing through a valid iterator: the item goes, the others stay in order, and so do
their iterators. -/
theorem erase_eq (h : l.deref i = some a) :
    ∃ l', l.erase i = some l' ∧ l.items.Perm (a :: l'.items) ∧ l'.items.Sublist l.items ∧
      ∀ j b, l'.deref j = some b ↔ l.deref j = some b ∧ j ≠ i := by
  refine ⟨_, by rw [erase, if_pos (by rw [h]; rfl)], ?_, ?_, ?_⟩
  · exact (perm_cons_filter l.nodup (deref_eq_some.mp h)).map snd
  · exact filter_sublist.map _
  · intro j b
    rw [deref_eq_some, deref_eq_some, mem_filter, decide_eq_true_iff]

section Iter

variable [DecidableEq α] {l' : NodeList α} {p : ℕ × α → Bool} {iter : α → ℕ}

/-- Every item knows its node. -/
def Indexed (l : NodeList α) (iter : α → ℕ) : Prop := ∀ a ∈ l.items, l.deref (iter a) = some a

theorem Indexed.insertWhere (h : l.Indexed iter) :
    (l.insertWhere p a).Indexed (update iter a l.fresh) := by
  intro b hb
  rcases eq_or_ne b a with rfl | hne
  · rw [update_self]
    exact deref_insertWhere_fresh
  · rw [mem_items_insertWhere, or_iff_right hne] at hb
    rw [update_of_ne hne]
    exact deref_eq_some.mpr
      ((perm_insert _ _ _).mem_iff.mpr (mem_cons_of_mem _ (deref_eq_some.mp (h b hb))))

theorem Indexed.erase (h : l.Indexed iter) (hnodup : l.items.Nodup)
    (hperm : l.items.Perm (a :: l'.items))
    (hderef : ∀ j b, l'.deref j = some b ↔ l.deref j = some b ∧ j ≠ iter a) (x : ℕ) :
    l'.Indexed (update iter a x) := by
  intro b hb
  have hne : b ≠ a := fun heq => (nodup_cons.mp (hperm.nodup_iff.mp hnodup)).1 (heq ▸ hb)
  have hold := h b (hperm.mem_iff.mpr (mem_cons_of_mem _ hb))
  rw [update_of_ne hne]
  refine (hderef _ _).mpr ⟨hold, ?_⟩
  -- two items do not share a node
  intro heq
  rw [heq, h a (hperm.mem_iff.mpr mem_cons_self)] at hold
  exact hne (Option.some.inj hold).symm

end Iter

/-- The search from an iterator on starts with its own node. -/
theorem findFrom_self {p : α → Bool} (h : l.deref i = some a) (hp : p a) :
    l.findFrom i p = some (some i) := by
  obtain ⟨pre, post, hnodes⟩ := append_of_mem (deref_eq_some.mp h)
  have hpre : ∀ node ∈ pre, decide (node.1 ≠ i) = true := by
    intro node hnode
    have hnodup := l.nodup
    rw [hnodes, map_append, nodup_append] at hnodup
    exact decide_eq_true
      (hnodup.2.2 node.1 (mem_map_of_mem hnode) i mem_cons_self)
  have hdrop : l.nodes.dropWhile (fun node => node.1 ≠ i) = (i, a) :: post := by
    rw [hnodes, dropWhile_append_of_pos hpre, dropWhile_cons_of_neg (by simp)]
  rw [findFrom, hdrop]
  simp [hp]

theorem nodes_modify {l l' : NodeList α} {f : α → α} (h : l.modify i f = some l') :
    l'.nodes = l.nodes.map fun node => if node.1 = i then (node.1, f node.2) else node := by
  rw [modify] at h
  split at h
  · rw [← Option.some.inj h]
  · cases h

/-! ## At a node

What the operations do at a node whose neighbours are known. -/

section At

variable {pre post : List (ℕ × α)}

section

variable (h : l.nodes = pre ++ (i, a) :: post)

include h

theorem deref_of_nodes : l.deref i = some a :=
  deref_eq_some.mpr (by rw [h]; exact mem_append_right _ mem_cons_self)

theorem ne_of_nodes : (∀ node ∈ pre, node.1 ≠ i) ∧ ∀ node ∈ post, node.1 ≠ i := by
  have hnodup := l.nodup
  rw [h, map_append, map_cons, nodup_append, nodup_cons] at hnodup
  obtain ⟨-, ⟨hpost, -⟩, hpre⟩ := hnodup
  refine ⟨fun node hnode => ?_, fun node hnode heq => ?_⟩
  · exact hpre node.1 (mem_map_of_mem hnode) i mem_cons_self
  · exact hpost (mem_map.mpr ⟨node, hnode, heq⟩)

theorem first_eq_iff : l.first = some i ↔ pre = [] := by
  rw [first, h]
  cases pre with
  | nil => simp
  | cons node pre =>
    have hne := (ne_of_nodes h).1 node mem_cons_self
    simp [hne]

end

theorem prev_eq {j : ℕ} {b : α} (h : l.nodes = (pre ++ [(j, b)]) ++ (i, a) :: post) :
    l.prev i = some j := by
  have htake : l.nodes.takeWhile (fun node => node.1 ≠ i) = pre ++ [(j, b)] := by
    rw [h, takeWhile_append_of_pos fun node hnode => by simpa using (ne_of_nodes h).1 node hnode,
      takeWhile_cons_of_neg (by simp), append_nil]
  rw [prev, deref_of_nodes h, htake]
  simp

theorem modify_eq (h : l.nodes = pre ++ (i, a) :: post) (f : α → α) :
    ∃ l', l.modify i f = some l' ∧ l'.nodes = pre ++ (i, f a) :: post := by
  refine ⟨_, by rw [modify, if_pos (by rw [deref_of_nodes h]; rfl)], ?_⟩
  have hsame : ∀ nodes : List (ℕ × α), (∀ node ∈ nodes, node.1 ≠ i) →
      nodes.map (fun node => if node.1 = i then (node.1, f node.2) else node) = nodes := by
    intro nodes hne
    conv_rhs => rw [← map_id nodes]
    exact map_congr_left fun node hnode => if_neg (hne node hnode)
  simp only [h, map_append, map_cons, if_true]
  rw [hsame pre (ne_of_nodes h).1, hsame post (ne_of_nodes h).2]

/-- Erasing the first node. -/
theorem erase_first (h : l.nodes = (i, a) :: post) :
    ∃ l', l.erase i = some l' ∧ l'.nodes = post := by
  have hnodes : l.nodes = [] ++ (i, a) :: post := h
  have hpost := (ne_of_nodes hnodes).2
  refine ⟨_, by rw [erase, if_pos (by rw [deref_of_nodes hnodes]; rfl)], ?_⟩
  simp only [h]
  rw [filter_cons_of_neg (by simp), filter_eq_self]
  exact fun node hnode => decide_eq_true (hpost node hnode)

end At

end NodeList
