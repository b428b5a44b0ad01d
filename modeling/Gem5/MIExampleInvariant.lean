/-
# The invariant of MI_example

The caches that the directory has accepted a `GETX` from stand in line for the
data: the head has it or is about to get it, each of the others waits for the
`GETX` that was forwarded to the one in front of it, and the last one is the owner
that the directory knows.  `Coherent` says where the one valid copy is (`Token`)
and what each cache is doing (`Role`), which fixes its record and its channels.
-/
import Gem5.MIExample
import Gem5.Handover

open Function

namespace MIExample

open Ruby

variable {N D : Type} {b : ℕ} {q : List (RequestMsg b)} {f : List (ForwardMsg N)} {r : Role}
  {c : Cache b} {next : Option N} {write : Bool}

/-! ## The invariant -/

/-- What a cache is doing; `write` tells a store from a load. -/
inductive Role where
  | idle
  /-- Its `GETX` is on the way. -/
  | asking (write : Bool)
  /-- In line, without the data. -/
  | waiting (write : Bool)
  /-- In `M`. -/
  | owning
  /-- In `MI` with the data, its `PUTX` is on the way. -/
  | putting
  /-- In `MI` with the data, the `PUTX` was refused. -/
  | nacked
  /-- In `MI`, the directory writes the data back. -/
  | released
  | acked
  /-- In `II`, its `PUTX` is on the way. -/
  | gone
  | goneNacked
  deriving DecidableEq

namespace Role

def InLine : Role → Prop
  | waiting _ | owning | putting | nacked => True
  | _ => False

def Holds : Role → Prop
  | owning | putting | nacked => True
  | _ => False

/-- The same place in the line, and the same part in the valid copy. -/
def Alike (r r' : Role) : Prop :=
  (r.InLine ↔ r'.InLine) ∧ (r.Holds ↔ r'.Holds) ∧ (r = .released ↔ r' = .released)

theorem Alike.refl (r : Role) : r.Alike r :=
  ⟨.rfl, .rfl, .rfl⟩

end Role

/-- Where the valid copy is. -/
inductive Token (N : Type) where
  | memory
  /-- The `PUTX` of `i` was accepted; `done` once memory has it. -/
  | writeBack (i : N) (done : Bool)
  /-- Memory is read for the head of the line. -/
  | fetch (done : Bool)
  /-- On its way from the directory to the head. -/
  | dirData
  /-- On its way from `j` to the head. -/
  | cacheData (j : N)
  | held
  deriving DecidableEq

/-- The copy is in a cache or on its way to one. -/
def Token.Cached : Token N → Prop
  | dirData | cacheData _ | held => True
  | _ => False

/-- The state of a cache that waits for data. -/
def pending (write : Bool) : CacheState := if write then .IM else .IS

/-- The state of a cache. -/
def Role.state : Role → CacheState
  | idle => .I
  | asking w | waiting w => pending w
  | owning => .M
  | putting | nacked | released | acked => .MI
  | gone | goneNacked => .II

theorem Role.state_eq_I : r.state = .I ↔ r = .idle := by
  cases r with
  | asking w | waiting w => cases w <;> decide
  | _ => decide

theorem Role.state_eq_M : r.state = .M ↔ r = .owning := by
  cases r with
  | asking w | waiting w => cases w <;> decide
  | _ => decide

/-- The `GETX` forwarded for the one behind. -/
def forwarded (next : Option N) : List (ForwardMsg N) := next.toList.map .GETX

theorem eq_of_forwarded {m : ForwardMsg N} {rest : List (ForwardMsg N)}
    (h : m :: rest = forwarded next) : ∃ k, next = some k ∧ m = .GETX k ∧ rest = [] := by
  cases next with
  | none => cases h
  | some k =>
    cases h
    exact ⟨k, rfl, rfl, rfl⟩

/-- The record and the channels of a cache, with the valid copy `v` and the one
behind it in line. -/
def Fits (v : DataBlock b) (next : Option N) (c : Cache b) (q : List (RequestMsg b))
    (f : List (ForwardMsg N)) : Role → Prop
  | .idle => ∃ e : Option (DataBlock b), c = ⟨e.map (CacheEntry.mk .I), none⟩ ∧ q = [] ∧ f = []
  | .asking w =>
    ∃ x y, c = ⟨some ⟨pending w, x⟩, some ⟨pending w, y⟩⟩ ∧ q = [.GETX] ∧ f = []
  | .waiting w =>
    ∃ x y, c = ⟨some ⟨pending w, x⟩, some ⟨pending w, y⟩⟩ ∧ q = [] ∧ f = forwarded next
  | .owning => c = ⟨some ⟨.M, v⟩, none⟩ ∧ q = [] ∧ f = forwarded next
  | .putting => c = ⟨none, some ⟨.MI, v⟩⟩ ∧ q = [.PUTX v] ∧ f = forwarded next
  | .nacked =>
    c = ⟨none, some ⟨.MI, v⟩⟩ ∧ q = [] ∧ ∃ k, next = some k ∧ f = [.GETX k, .WB_NACK]
  | .released => ∃ x, c = ⟨none, some ⟨.MI, x⟩⟩ ∧ q = [] ∧ f = []
  | .acked => ∃ x, c = ⟨none, some ⟨.MI, x⟩⟩ ∧ q = [] ∧ f = [.WB_ACK]
  | .gone => ∃ x y, c = ⟨none, some ⟨.II, x⟩⟩ ∧ q = [.PUTX y] ∧ f = []
  | .goneNacked => ∃ x, c = ⟨none, some ⟨.II, x⟩⟩ ∧ q = [] ∧ f = [.WB_NACK]

/-- The directory and memory. -/
def DirFits (dir : Dir N D b) (answers : List (MemoryMsg (MachineID N D) b)) (mem : Memory)
    (line : Addr) (v : DataBlock b) (owners : List N) : Token N → Prop
  | .memory =>
    owners = [] ∧ dir = ⟨line, ⟨.I, ∅⟩, none, []⟩ ∧ answers = [] ∧
      readBlock mem line.toNat = v
  | .writeBack i false =>
    owners = [] ∧ (∃ t : DirTBE D b, dir = ⟨line, ⟨.MI, ∅⟩, some { t with tbeState := .MI },
      [⟨line, .MEMORY_WB, .L1Cache i, v, 0⟩]⟩) ∧ answers = []
  | .writeBack i true =>
    owners = [] ∧ (∃ t : DirTBE D b, dir = ⟨line, ⟨.MI, ∅⟩, some { t with tbeState := .MI }, []⟩) ∧
      answers = [⟨line, .MEMORY_WB, .L1Cache i, fun _ => 0, 0⟩] ∧
      readBlock mem line.toNat = v
  | .fetch false =>
    ∃ h, owners = [h] ∧ (∃ t : DirTBE D b, dir = ⟨line, ⟨.IM, {h}⟩, some { t with tbeState := .IM },
      [⟨line, .MEMORY_READ, .L1Cache h, fun _ => 0, 0⟩]⟩) ∧ answers = [] ∧
      readBlock mem line.toNat = v
  | .fetch true =>
    ∃ h, owners = [h] ∧ (∃ t : DirTBE D b, dir = ⟨line, ⟨.IM, {h}⟩, some { t with tbeState := .IM }, []⟩) ∧
      answers = [⟨line, .MEMORY_READ, .L1Cache h, v, 0⟩]
  | _ =>
    ∃ o, owners.getLast? = some o ∧ dir = ⟨line, ⟨.M, {o}⟩, none, []⟩ ∧
      answers = []

theorem dirFits_cached {dir : Dir N D b} {answers : List (MemoryMsg (MachineID N D) b)}
    {mem : Memory} {line : Addr} {v : DataBlock b} {owners : List N} {tok : Token N}
    (htok : tok.Cached) : DirFits dir answers mem line v owners tok ↔
      ∃ o, owners.getLast? = some o ∧ dir = ⟨line, ⟨.M, {o}⟩, none, []⟩ ∧ answers = [] := by
  cases tok with
  | dirData | cacheData j | held => exact .rfl
  | _ => exact absurd htok id

/-- **The invariant**, with the line of owners, the valid copy and the roles. -/
structure Coherent [DecidableEq N] (s : System N D b) (line : Addr) (v : DataBlock b) (owners : List N)
    (tok : Token N) (role : N → Role) : Prop where
  nodup : owners.Nodup
  fits : ∀ i, Fits v (behind owners i) (s.caches i) (s.requests i) (s.forwards i) (role i)
  inLine : ∀ i, (role i).InLine ↔ i ∈ owners
  holds : ∀ i, (role i).Holds ↔ tok = .held ∧ owners.head? = some i
  released : ∀ i, role i = .released ↔ ∃ done, tok = .writeBack i done
  dirData : ∀ i, s.dirData i = if tok = .dirData ∧ owners.head? = some i then [v] else []
  cacheData : ∀ j i, s.cacheData j i
    = if tok = .cacheData j ∧ owners.head? = some i then [v] else []
  dir : DirFits s.dir s.responseFromMemory s.mem line v owners tok

theorem Fits.getState_eq {v : DataBlock b} (h : Fits v next c q f r) : c.getState = r.state := by
  cases r with
  | idle =>
    obtain ⟨e, rfl, -, -⟩ := h
    cases e <;> rfl
  | asking w | waiting w =>
    obtain ⟨x, y, rfl, -, -⟩ := h
    rfl
  | owning | putting | nacked =>
    obtain ⟨rfl, -, -⟩ := h
    rfl
  | released | acked =>
    obtain ⟨x, rfl, -, -⟩ := h
    rfl
  | gone =>
    obtain ⟨x, y, rfl, -, -⟩ := h
    rfl
  | goneNacked =>
    obtain ⟨x, rfl, -, -⟩ := h
    rfl

/-- Only the holder of the copy knows its value. -/
theorem Fits.congr_value {v w : DataBlock b} (h : Fits v next c q f r) (hr : ¬ r.Holds) :
    Fits w next c q f r := by
  cases r with
  | owning | putting | nacked => exact absurd trivial hr
  | _ => exact h

/-! ## What the machines do

The transitions that occur, on the records that the invariant allows. -/

/-- A load or a store of the processor. -/
def CacheIn.asks : CacheIn N b → Option Bool
  | .load | .ifetch => some false
  | .store _ => some true
  | _ => none

namespace Cache

variable (v w x y : DataBlock b) (r : N) {msg : CacheIn N b}

theorem handle_busy (hmsg : msg.asks ≠ none ∨ msg = .replacement) (hI : c.getState ≠ .I)
    (hM : c.getState ≠ .M) : c.handle msg = .ok { cache := c, inMsg := msg } := by
  unfold handle
  revert hI hM
  cases c.getState with
  | I => exact fun hI => absurd rfl hI
  | M => exact fun _ hM => absurd rfl hM
  | _ =>
    intro _ _
    cases msg with
    | forward msg | response blk w => simp [CacheIn.asks] at hmsg
    | _ => rfl

theorem handle_idle (e : Option (DataBlock b)) (hmsg : msg.asks = some write) :
    ∃ x y, handle ⟨e.map (CacheEntry.mk .I), none⟩ msg
      = .ok { cache := ⟨some ⟨pending write, x⟩, some ⟨pending write, y⟩⟩, inMsg := msg,
              requests := [.GETX], popped := true } := by
  refine ⟨e.getD fun _ => 0, fun _ => 0, ?_⟩
  cases msg with
  | load | ifetch | store w =>
    cases hmsg
    cases e <;> rfl
  | _ => cases hmsg

end Cache

namespace Dir

variable [DecidableEq N] (line : Addr) (t : DirTBE D b) (v : DataBlock b) (i o : N)

/-- A request that comes while memory is busy is recycled. -/
theorem handle_recycle {state : DirState} (hstate : state = .IM ∨ state = .MI) (owner : Finset N)
    (q : List (MemoryMsg (MachineID N D) b)) (m : RequestMsg b) :
    handle ⟨line, ⟨state, owner⟩, some { t with tbeState := state }, q⟩ (.request i m)
      = .ok { dir := ⟨line, ⟨state, owner⟩, some { t with tbeState := state }, q⟩,
              inMsg := .request i m, handled := .recycled } := by
  cases m with
  | GETX | GETS => rcases hstate with rfl | rfl <;> rfl
  | PUTX blk =>
    unfold handle event
    by_cases hi : i ∈ owner
    · simp only [if_pos hi]
      rcases hstate with rfl | rfl <;> rfl
    · simp only [if_neg hi]
      rcases hstate with rfl | rfl <;> rfl

/-- The `PUTX` of a cache that is not the owner is refused. -/
theorem handle_refuse (entry : DirEntry N) (hentry : entry = ⟨.I, ∅⟩ ∨ ∃ o, entry = ⟨.M, {o}⟩)
    (hi : i ∉ entry.owner) :
    handle (D := D) ⟨line, entry, none, []⟩ (.request i (.PUTX v))
      = .ok { dir := ⟨line, entry, none, []⟩, inMsg := .request i (.PUTX v),
              forwards := [({i}, .WB_NACK)], handled := .popped } := by
  have hevent : event (D := D) ⟨line, entry, none, []⟩ (.request i (.PUTX v)) = .PUTX_NotOwner :=
    if_neg hi
  unfold handle
  rw [hevent]
  rcases hentry with rfl | ⟨o, rfl⟩ <;> rfl

end Dir

/-! ## Changes of the state -/

section

variable [DecidableEq N] {i : N}

namespace System

/-- Another record and other channels for the cache `i`. -/
def setView (s : System N D b) (i : N) (c : Cache b) (q : List (RequestMsg b))
    (f : List (ForwardMsg N)) : System N D b :=
  { s with
    caches := update s.caches i c
    requests := update s.requests i q
    forwards := update s.forwards i f }

/-- A cache that sends no data changes its own record and channels. -/
theorem afterCache_eq (s : System N D b) (i : N) {ctx : CacheCtx N b} (h : ctx.responses = []) :
    s.afterCache i ctx = s.setView i ctx.cache (s.requests i ++ ctx.requests) (s.forwards i) := by
  unfold afterCache setView
  rw [h, push_nil, update_eq_self, update_eq_self]

/-- The directory sends one message to one cache. -/
theorem afterDir_forward [DecidableEq D] {s : System N D b} {ctx : DirCtx N D b} {m : ForwardMsg N}
    (hforward : ctx.forwards = [({i}, m)]) (hresp : ctx.responses = [])
    (hdma : ctx.dmaResponses = []) :
    s.afterDir ctx = { s with
      dir := ctx.dir
      forwards := update s.forwards i (s.forwards i ++ [m]) } := by
  unfold afterDir
  rw [hforward, forwards_singleton, hresp, hdma, push_nil, push_nil]

/-- The directory sends nothing. -/
theorem afterDir_quiet [DecidableEq D] {s : System N D b} {ctx : DirCtx N D b}
    (hforward : ctx.forwards = []) (hresp : ctx.responses = []) (hdma : ctx.dmaResponses = []) :
    s.afterDir ctx = { s with dir := ctx.dir } := by
  unfold afterDir
  simp [hforward, hresp, hdma]

end System

namespace Coherent

variable {s : System N D b} {line : Addr} {v w : DataBlock b} {owners : List N} {tok : Token N}
  {role : N → Role}

/-- A cache that stands where the line and the valid copy say, in its role. -/
def Stands (owners : List N) (tok : Token N) (i : N) (r : Role) : Prop :=
  (r.InLine ↔ i ∈ owners) ∧ (r.Holds ↔ tok = .held ∧ owners.head? = some i) ∧
    (r = .released ↔ ∃ done, tok = .writeBack i done)

theorem stands (h : Coherent s line v owners tok role) (i : N) : Stands owners tok i (role i) :=
  ⟨h.inLine i, h.holds i, h.released i⟩

omit [DecidableEq N] in
theorem Stands.alike {r r' : Role} (h : Stands owners tok i r) (hr : r'.Alike r) :
    Stands owners tok i r' :=
  ⟨hr.1.trans h.1, hr.2.1.trans h.2.1, hr.2.2.trans h.2.2⟩

/-- One cache takes another role, and the line and the copy may move. -/
theorem setRole {s' : System N D b} {owners' : List N} {tok' : Token N}
    (hnodup : owners'.Nodup)
    (hfits : Fits w (behind owners' i) (s'.caches i) (s'.requests i) (s'.forwards i) r)
    (hstands : Stands owners' tok' i r)
    (hother : ∀ j ≠ i,
      Fits w (behind owners' j) (s'.caches j) (s'.requests j) (s'.forwards j) (role j))
    (hothers : ∀ j ≠ i, Stands owners' tok' j (role j))
    (hdirData : ∀ j, s'.dirData j = if tok' = .dirData ∧ owners'.head? = some j then [w] else [])
    (hcacheData : ∀ j k, s'.cacheData j k =
      if tok' = .cacheData j ∧ owners'.head? = some k then [w] else [])
    (hdir : DirFits s'.dir s'.responseFromMemory s'.mem line w owners' tok') :
    Coherent s' line w owners' tok' (update role i r) := by
  have hroles := (forall_update_iff role (p := fun j => Stands owners' tok' j)).mpr
    ⟨hstands, hothers⟩
  exact ⟨hnodup, (forall_update_iff role (p := fun j r => Fits w _ _ _ _ r)).mpr ⟨hfits, hother⟩,
    fun j => (hroles j).1, fun j => (hroles j).2.1, fun j => (hroles j).2.2, hdirData, hcacheData,
    hdir⟩

/-- **A cache changes on its own.**  The place in the line stays; the holder may
give the copy another value. -/
theorem setView (h : Coherent s line v owners tok role) (hfits : Fits w (behind owners i) c q f r)
    (halike : r.Alike (role i)) (hw : w = v ∨ (role i).Holds) :
    Coherent (s.setView i c q f) line w owners tok (update role i r) := by
  refine setRole h.nodup (by simpa [System.setView] using hfits) ((h.stands i).alike halike)
    (fun j hj => ?_) (fun j _ => h.stands j) ?_ ?_ ?_
  · simp only [System.setView, update_of_ne hj]
    rcases hw with rfl | hi
    · exact h.fits j
    · apply (h.fits j).congr_value
      intro hj'
      have hhead := ((h.holds i).mp hi).2
      rw [((h.holds j).mp hj').2] at hhead
      exact hj (Option.some.inj hhead)
  all_goals rcases hw with rfl | hi
  · exact h.dirData
  · obtain ⟨rfl, -⟩ := (h.holds i).mp hi
    simpa [System.setView] using h.dirData
  · exact h.cacheData
  · obtain ⟨rfl, -⟩ := (h.holds i).mp hi
    simpa [System.setView] using h.cacheData
  · exact h.dir
  · obtain ⟨rfl, -⟩ := (h.holds i).mp hi
    exact h.dir

/-- No data is on its way while the copy is held. -/
theorem channels_held (h : Coherent s line v owners .held role) :
    (∀ i, s.dirData i = []) ∧ ∀ j i, s.cacheData j i = [] := by
  constructor
  · intro i
    rw [h.dirData, if_neg (by simp)]
  · intro j i
    rw [h.cacheData, if_neg (by simp)]

/-- A stable cache in the line has the copy, so that it is the only one there. -/
theorem owners_of_stable (h : Coherent s line v owners tok role)
    (hstable : ∀ i, role i = .idle ∨ role i = .owning) :
    owners = [] ∧ tok = .memory ∨ ∃ o, owners = [o] ∧ tok = .held := by
  have hhead (i : N) (hi : i ∈ owners) : tok = .held ∧ owners.head? = some i := by
    rw [← h.inLine] at hi
    rw [← h.holds]
    rcases hstable i with hr | hr <;> rw [hr] at hi ⊢ <;> exact hi
  have hdir := h.dir
  cases owners with
  | nil =>
    cases tok with
    | memory => exact .inl ⟨rfl, rfl⟩
    | writeBack i done => simpa [(h.released i).mpr ⟨done, rfl⟩] using hstable i
    | fetch done => cases done <;> simp [DirFits] at hdir
    | _ => simp [DirFits] at hdir
  | cons o l =>
    refine .inr ⟨o, ?_, (hhead o (.head l)).1⟩
    cases l with
    | nil => rfl
    | cons x l =>
      obtain ⟨-, ⟨⟩⟩ := hhead x (.tail o (.head l))
      exact absurd h.nodup (by simp)

/-- **The head hands the copy over** to the one behind it and leaves the line. -/
theorem handOver {i k : N} {l : List N} (h : Coherent s line v (i :: k :: l) .held role)
    (hfits : Fits v none c q f r) (halike : r.Alike .idle) :
    Coherent { s.setView i c q f with
        cacheData := update s.cacheData i (push (s.cacheData i) [(k, v)]) }
      line v (k :: l) (.cacheData i) (update role i r) := by
  obtain ⟨hi, hnodup⟩ := List.nodup_cons.mp h.nodup
  obtain ⟨hdirData, hcacheData⟩ := h.channels_held
  have hstands : Stands (k :: l) (.cacheData i) i .idle :=
    ⟨iff_of_false id hi, iff_of_false id (by simp), by simp⟩
  refine setRole hnodup ?_ (hstands.alike halike) (fun j hj => ?_) (fun j hj => ⟨?_, ?_, ?_⟩)
    hdirData ?_ ?_
  · simp only [System.setView, update_self, behind_of_notMem hi]
    exact hfits
  · simp only [System.setView, update_of_ne hj]
    rw [behind_tail hj]
    exact h.fits j
  · rw [h.inLine, List.mem_cons]
    simp [hj]
  · refine iff_of_false (fun hj' => ?_) (by simp)
    exact hj (Option.some.inj ((h.holds j).mp hj').2).symm
  · rw [h.released]
    simp
  · intro j m
    show update s.cacheData i _ j m = _
    by_cases hj : j = i
    · subst hj
      rw [update_self, push_singleton]
      by_cases hm : m = k
      · subst hm
        rw [update_self, hcacheData, if_pos ⟨rfl, rfl⟩]
        rfl
      · rw [update_of_ne hm, hcacheData, if_neg]
        rintro ⟨-, hhead⟩
        exact hm (Option.some.inj hhead).symm
    · rw [update_of_ne hj, hcacheData, if_neg]
      rintro ⟨htok, -⟩
      exact hj (Token.cacheData.inj htok).symm
  · obtain ⟨o, hlast, hdir⟩ := h.dir
    exact ⟨o, hlast, hdir⟩

/-- **The copy arrives** at the head. -/
theorem arrive (h : Coherent s line v owners tok role) (hhead : owners.head? = some i)
    (htok : tok = .dirData ∨ ∃ j, tok = .cacheData j) (hrole : role i = .waiting write) :
    Coherent { s with
        caches := update s.caches i ⟨some ⟨.M, w⟩, none⟩
        dirData := fun _ => []
        cacheData := fun _ _ => [] }
      line w owners .held (update role i .owning) := by
  have hnone : ∀ j, ¬ (role j).Holds := by
    intro j hj
    have hheld := ((h.holds j).mp hj).1
    rcases htok with rfl | ⟨k, rfl⟩ <;> cases hheld
  have hin := h.inLine i
  have hfits := h.fits i
  rw [hrole] at hin hfits
  refine setRole h.nodup ?_ ⟨hin, iff_of_true trivial ⟨rfl, hhead⟩, by simp⟩ (fun j hj => ?_)
    (fun j hj => ⟨h.inLine j, ?_, ?_⟩) (by simp) (by simp) ?_
  · obtain ⟨x, y, -, hq, hf⟩ := hfits
    exact ⟨update_self .., hq, hf⟩
  · dsimp only
    rw [update_of_ne hj]
    exact (h.fits j).congr_value (hnone j)
  · apply iff_of_false (hnone j)
    rintro ⟨-, hj'⟩
    exact hj (Option.some.inj (hj'.symm.trans hhead))
  · rw [h.released]
    rcases htok with rfl | ⟨k, rfl⟩ <;> simp
  · rcases htok with rfl | ⟨k, rfl⟩ <;> exact h.dir

/-- A request is forwarded to the last one in line, who has nobody behind it yet. -/
theorem fits_last (h : Coherent s line v owners tok role) {i j : N}
    (hjl : owners.getLast? = some j) :
    Fits v (some i) (s.caches j) (s.requests j) (s.forwards j ++ [.GETX i]) (role j) := by
  have hmem : j ∈ owners := List.mem_of_getLast? hjl
  have hfits := h.fits j
  have hline := (h.inLine j).mpr hmem
  rw [(behind_eq_none_iff h.nodup hmem).mpr hjl] at hfits
  cases hr : role j with
  | waiting w' =>
    rw [hr] at hfits
    obtain ⟨x, y, hc, hq, hf⟩ := hfits
    exact ⟨x, y, hc, hq, by rw [hf]; rfl⟩
  | owning | putting =>
    rw [hr] at hfits
    obtain ⟨hc, hq, hf⟩ := hfits
    exact ⟨hc, hq, by rw [hf]; rfl⟩
  | nacked =>
    rw [hr] at hfits
    obtain ⟨-, -, k, hk, -⟩ := hfits
    cases hk
  | _ =>
    rw [hr] at hline
    exact absurd hline id

/-- **A cache joins the line**: the directory has accepted its `GETX` and forwarded
it to the one that was last. -/
theorem join (h : Coherent s line v owners tok role)
    (hrole : role i = .asking write) (tok' : Token N) (dir' : Dir N D b)
    (htok : tok' = tok ∧ owners ≠ [] ∧ (∀ j done, tok ≠ .writeBack j done) ∨
      tok = .memory ∧ tok' = .fetch false)
    (hdir : DirFits dir' s.responseFromMemory s.mem line v (owners ++ [i]) tok') :
    Coherent { s with
        dir := dir'
        requests := update s.requests i []
        forwards := fun j =>
          if owners.getLast? = some j then s.forwards j ++ [.GETX i] else s.forwards j }
      line v (owners ++ [i]) tok' (update role i (.waiting write)) := by
  have hi : i ∉ owners := by
    rw [← h.inLine, hrole]
    exact id
  have hlast : owners.getLast? ≠ some i := fun hlast => hi (List.mem_of_getLast? hlast)
  -- the token and its place are the same, or no channel depends on them
  have hhead : ∀ j, (tok' = .held ∧ (owners ++ [i]).head? = some j ↔
        tok = .held ∧ owners.head? = some j) ∧
      (tok' = .dirData ∧ (owners ++ [i]).head? = some j ↔
        tok = .dirData ∧ owners.head? = some j) ∧
      ∀ m, (tok' = .cacheData m ∧ (owners ++ [i]).head? = some j ↔
        tok = .cacheData m ∧ owners.head? = some j) := by
    intro j
    rcases htok with ⟨rfl, hne, -⟩ | ⟨rfl, rfl⟩
    · rw [List.head?_append_of_ne_nil _ hne]
      exact ⟨.rfl, .rfl, fun m => .rfl⟩
    · simp
  have hwrite : ∀ j, ¬ ∃ done, tok' = .writeBack j done := by
    rcases htok with ⟨rfl, -, hwb⟩ | ⟨rfl, rfl⟩
    · exact fun j ⟨done, htok⟩ => hwb j done htok
    · simp
  have hreleased : ∀ j, role j ≠ .released := by
    intro j hj
    rcases htok with ⟨rfl, -, -⟩ | ⟨rfl, -⟩
    · exact hwrite j ((h.released j).mp hj)
    · simp [h.released j] at hj
  have hholds := h.holds i
  have hfits := h.fits i
  rw [hrole] at hholds hfits
  refine setRole ?_ ?_ ⟨iff_of_true trivial (by simp), hholds.trans (hhead i).1.symm,
    iff_of_false (by simp) (hwrite i)⟩ (fun j hj => ?_)
    (fun j hj => ⟨?_, (h.holds j).trans (hhead j).1.symm, iff_of_false (hreleased j) (hwrite j)⟩)
    ?_ ?_ hdir
  · rw [List.nodup_append]
    refine ⟨h.nodup, by simp, ?_⟩
    intro x hx y hy
    rw [List.mem_singleton.mp hy]
    rintro rfl
    exact hi hx
  · obtain ⟨x, y, hc, -, hf⟩ := hfits
    dsimp only
    rw [behind_concat h.nodup hi, update_self, if_neg hlast, if_neg hlast, behind_of_notMem hi]
    exact ⟨x, y, hc, rfl, hf⟩
  · dsimp only
    rw [behind_concat h.nodup hi, update_of_ne hj]
    by_cases hjl : owners.getLast? = some j
    · rw [if_pos hjl, if_pos hjl]
      exact h.fits_last hjl
    · rw [if_neg hjl, if_neg hjl]
      exact h.fits j
  · rw [h.inLine]
    simp [hj]
  · intro j
    rw [h.dirData]
    simp only [(hhead j).2.1]
  · intro m j
    rw [h.cacheData]
    simp only [(hhead j).2.2 m]

/-- **The copy goes back to memory**: the `PUTX` of the only one in line is
accepted. -/
theorem release (h : Coherent s line v [i] .held role) (hrole : role i = .putting) (t : DirTBE D b)
    :
    Coherent { s with
        dir := ⟨line, ⟨.MI, ∅⟩, some { t with tbeState := .MI },
          [⟨line, .MEMORY_WB, .L1Cache i, v, 0⟩]⟩
        requests := update s.requests i [] }
      line v [] (.writeBack i false) (update role i .released) := by
  obtain ⟨hdirData, hcacheData⟩ := h.channels_held
  have hfits := h.fits i
  rw [hrole] at hfits
  refine setRole List.nodup_nil ?_ ⟨iff_of_false id (by simp), iff_of_false id (by simp),
    iff_of_true rfl ⟨false, rfl⟩⟩ (fun j hj => ?_) (fun j hj => ⟨?_, ?_, ?_⟩) hdirData hcacheData ?_
  · obtain ⟨hc, -, hf⟩ := hfits
    refine ⟨v, hc, update_self .., ?_⟩
    rw [hf, behind_head]
    rfl
  · have hfits_j := h.fits j
    rw [behind_of_notMem (by simpa using hj)] at hfits_j
    dsimp only
    rw [update_of_ne hj]
    exact hfits_j
  · rw [h.inLine]
    simp [hj]
  · refine iff_of_false (fun hj' => ?_) (by simp)
    exact hj (Option.some.inj ((h.holds j).mp hj').2).symm
  · rw [h.released]
    simp [hj.symm]
  · exact ⟨rfl, ⟨t, rfl⟩, by obtain ⟨o, -, -, hans⟩ := h.dir; exact hans⟩

/-- Memory has served its request. -/
theorem served (h : Coherent s line v owners tok role) (tok' : Token N)
    (htok : (∃ i, tok = .writeBack i false ∧ tok' = .writeBack i true) ∨
      tok = .fetch false ∧ tok' = .fetch true)
    {dir' : Dir N D b} {answers : List (MemoryMsg (MachineID N D) b)} {mem' : Memory}
    (hdir : DirFits dir' answers mem' line v owners tok') :
    Coherent { s with dir := dir', responseFromMemory := answers, mem := mem' }
      line v owners tok' role := by
  refine ⟨h.nodup, h.fits, h.inLine, ?_, ?_, ?_, ?_, hdir⟩
  all_goals
    rcases htok with ⟨i, rfl, rfl⟩ | ⟨rfl, rfl⟩ <;>
      simp [h.holds, h.released, h.dirData, h.cacheData]

/-- The directory sends the copy that memory has read. -/
theorem sendData (h : Coherent s line v [i] (.fetch true) role) :
    Coherent { s with
        dir := ⟨line, ⟨.M, {i}⟩, none, []⟩
        responseFromMemory := []
        dirData := push s.dirData [(i, v)] }
      line v [i] .dirData role := by
  refine ⟨h.nodup, h.fits, h.inLine, ?_, ?_, ?_, ?_, ?_⟩
  · intro j
    rw [h.holds]
    simp
  · intro j
    rw [h.released]
    simp
  · intro j
    dsimp only
    rw [push_singleton]
    by_cases hj : j = i
    · subst hj
      rw [update_self, h.dirData, if_neg (by simp), if_pos ⟨rfl, rfl⟩]
      rfl
    · rw [update_of_ne hj, h.dirData, if_neg (by simp), if_neg]
      rintro ⟨-, hhead⟩
      exact hj (Option.some.inj hhead).symm
  · intro j m
    rw [h.cacheData, if_neg (by simp), if_neg (by simp)]
  · exact ⟨i, rfl, rfl, rfl⟩

/-- The directory acknowledges that memory has the copy. -/
theorem sendAck (h : Coherent s line v [] (.writeBack i true) role) :
    Coherent { s with
        dir := ⟨line, ⟨.I, ∅⟩, none, []⟩
        responseFromMemory := []
        forwards := update s.forwards i [.WB_ACK] }
      line v [] .memory (update role i .acked) := by
  have hfits := h.fits i
  rw [(h.released i).mpr ⟨true, rfl⟩] at hfits
  refine setRole h.nodup ?_ ⟨iff_of_false id (by simp), iff_of_false id (by simp), by simp⟩
    (fun j hj => ?_) (fun j hj => ⟨h.inLine j, ?_, ?_⟩) ?_ ?_ ?_
  · obtain ⟨x, hc, hq, -⟩ := hfits
    exact ⟨x, hc, hq, update_self ..⟩
  · dsimp only
    rw [update_of_ne hj]
    exact h.fits j
  · rw [h.holds]
    simp
  · rw [h.released]
    simp [hj.symm]
  · intro j
    rw [h.dirData, if_neg (by simp), if_neg (by simp)]
  · intro j m
    rw [h.cacheData, if_neg (by simp), if_neg (by simp)]
  · obtain ⟨-, -, -, hmem⟩ := h.dir
    exact ⟨rfl, rfl, rfl, hmem⟩

variable (h : Coherent s line v owners tok role)

include h

/-- **What the directory is doing**: it waits for memory, nobody has the line, or
the last one in line owns it. -/
theorem dir_cases :
    (∃ state owner, ∃ t : DirTBE D b, ∃ q, (state = .IM ∨ state = .MI) ∧
      s.dir = ⟨line, ⟨state, owner⟩, some { t with tbeState := state }, q⟩) ∨
    (tok = .memory ∧ s.dir = ⟨line, ⟨.I, ∅⟩, none, []⟩) ∨
    (tok.Cached ∧ ∃ o, owners.getLast? = some o ∧ s.dir = ⟨line, ⟨.M, {o}⟩, none, []⟩) := by
  have hdir := h.dir
  cases tok with
  | memory => exact .inr (.inl ⟨rfl, hdir.2.1⟩)
  | writeBack i done =>
    cases done with
    | false | true =>
      obtain ⟨-, ⟨t, ht⟩, -⟩ := hdir
      exact .inl ⟨.MI, ∅, t, _, .inr rfl, ht⟩
  | fetch done =>
    cases done with
    | false | true =>
      obtain ⟨o, -, ⟨t, ht⟩, -⟩ := hdir
      exact .inl ⟨.IM, {o}, t, _, .inl rfl, ht⟩
  | dirData | cacheData j | held =>
    obtain ⟨o, hlast, ho, -⟩ := hdir
    exact .inr (.inr ⟨trivial, o, hlast, ho⟩)

/-- Memory has something to do only for a write back or a fetch. -/
theorem requestToMemory_cases (hne : s.dir.requestToMemory ≠ []) :
    (∃ i, tok = .writeBack i false) ∨ tok = .fetch false := by
  have hdir := h.dir
  cases tok with
  | memory => exact absurd (by rw [hdir.2.1]) hne
  | writeBack i done =>
    cases done with
    | false => exact .inl ⟨i, rfl⟩
    | true =>
      obtain ⟨-, ⟨t, ht⟩, -⟩ := hdir
      exact absurd (by rw [ht]) hne
  | fetch done =>
    cases done with
    | false => exact .inr rfl
    | true =>
      obtain ⟨o, -, ⟨t, ht⟩, -⟩ := hdir
      exact absurd (by rw [ht]) hne
  | dirData | cacheData j | held =>
    obtain ⟨o, -, ho, -⟩ := hdir
    exact absurd (by rw [ho]) hne

/-- An answer of memory is one to a write back or a fetch. -/
theorem responseFromMemory_cases (hne : s.responseFromMemory ≠ []) :
    (∃ i, tok = .writeBack i true) ∨ tok = .fetch true := by
  have hdir := h.dir
  cases tok with
  | memory => exact absurd hdir.2.2.1 hne
  | writeBack i done =>
    cases done with
    | true => exact .inl ⟨i, rfl⟩
    | false => exact absurd hdir.2.2 hne
  | fetch done =>
    cases done with
    | true => exact .inr rfl
    | false =>
      obtain ⟨o, -, -, hans, -⟩ := hdir
      exact absurd hans hne
  | dirData | cacheData j | held =>
    obtain ⟨o, -, -, hans⟩ := hdir
    exact absurd hans hne

end Coherent

end

end MIExample
