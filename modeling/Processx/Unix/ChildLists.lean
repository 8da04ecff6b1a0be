import Processx.Unix.Handler
import Processx.Library.Chains

/-!
# The lists of the children in memory

The nodes of the child list and of the free list are cells of memory that refer to the next one,
and each list starts with a static cell. `processx__sigchld_callback()` takes nodes out of the
first list and puts them into the second one while it walks through the first. Here the pointers
are modelled, and what is not allocated cannot be read or written: such a call has no result, just
as one that is still going on when the rounds are used up.
-/

namespace Processx

open Chains

/-- `processx__child_list_t`, with its `next` field. -/
structure Cell where
  node : Node
  next : Option ℕ
  deriving DecidableEq

/-- The memory with the cells, and the rest of the state. The lists that `World` has are not
used here. -/
structure ChildLists where
  cells : ℕ → Option Cell
  world : World

/-- The address of `child_list_head`. -/
def childListHead : ℕ := 0

/-- The address of `child_free_list_head`. -/
def childFreeListHead : ℕ := 1

/-- Both lists are empty: the static cells are all there is. -/
def ChildLists.empty (w : World) : ChildLists where
  cells a := if a = childListHead ∨ a = childFreeListHead then some ⟨⟨0, 0, false⟩, none⟩ else none
  world := w

namespace ChildLists

/-- Write to the `next` field of a cell. -/
def setNext (s : ChildLists) (a : ℕ) (p : Option ℕ) : Option ChildLists :=
  (s.cells a).map fun cell =>
    { s with cells := Function.update s.cells a (some { cell with next := p }) }

/-- `processx__freelist_add()` -/
def freelistAdd (s : ChildLists) (ptr : ℕ) : Option ChildLists :=
  (s.cells childFreeListHead).bind fun head =>
    (s.setNext ptr head.next).bind fun s => s.setNext childFreeListHead (some ptr)

/-- The loop of `processx__freelist_free()`. -/
def freelistFreeLoop : ℕ → Option ℕ → ChildLists → Option ChildLists
  | _, none, s => some s
  | 0, some _, _ => none
  | rounds + 1, some ptr, s =>
    (s.cells ptr).bind fun cell =>
      freelistFreeLoop rounds cell.next { s with cells := Function.update s.cells ptr none }

/-- `processx__freelist_free()` -/
def freelistFree (rounds : ℕ) (s : ChildLists) : Option ChildLists :=
  (s.cells childFreeListHead).bind fun head =>
    (freelistFreeLoop rounds head.next s).bind fun s => s.setNext childFreeListHead none

/-- `processx__child_add()`, where `calloc()` finds room at an address, or does not. The result is
what the function returns, and the memory. -/
def childAdd (room : Option ℕ) (pid : ℕ) (status : Sexp) (s : ChildLists) :
    Option (ℕ × ChildLists) :=
  match room.filter fun a => (s.cells a).isNone with
  | none => some (1, s)
  | some child =>
    (s.cells childListHead).bind fun head =>
      let s := { s with
        cells := Function.update s.cells child (some ⟨⟨pid, status, true⟩, head.next⟩) }
      (s.setNext childListHead (some child)).map fun s => (0, s)

/-- What `waitpid()` does to the processes. Calls that a signal has interrupted are repeated, and
the answer is that of the last one. -/
abbrev Waitpid := ℕ → (ℕ → Proc) → WaitResult × (ℕ → Proc)

end ChildLists

/-- Does the handler leave the node in the list? -/
def WaitResult.stays : WaitResult → Bool
  | .none => true
  | .error => true
  | .exited _ => false
  | .echild => false

/-- What the handler does for a child that has exited, apart from the lists. -/
def World.childReaped (w : World) (node : Node) (wp : WaitResult) : World :=
  match w.nodeHandle node with
  | none => w
  | some _ =>
    let w := w.collectExitStatus node.status wp
    match w.handles node.status with
    | none => w
    | some h =>
      match h.waitpipe1 with
      | none => w
      | some fd => (w.close .handler fd).setHandle node.status (some { h with waitpipe1 := none })

namespace ChildLists

/-- The loop of `processx__sigchld_callback()`, with the nodes it has looked at and the answers for
their children. -/
def reapLoop (waitpid : Waitpid) : ℕ → ℕ → Option ℕ → ChildLists →
    Option (List (ℕ × WaitResult) × ChildLists)
  | _, _, none, s => some ([], s)
  | 0, _, some _, _ => none
  | rounds + 1, prev, some ptr, s =>
    (s.cells ptr).bind fun cell =>
      let (wp, procs) := waitpid cell.node.pid s.world.procs
      let s := { s with world := { s.world with procs := procs } }
      if wp.stays then
        (reapLoop waitpid rounds ptr cell.next s).map fun (answers, s) =>
          ((ptr, wp) :: answers, s)
      else
        let s := { s with world := s.world.childReaped cell.node wp }
        (s.freelistAdd ptr).bind fun s =>
          (s.setNext prev cell.next).bind fun s =>
            (reapLoop waitpid rounds prev cell.next s).map fun (answers, s) =>
              ((ptr, wp) :: answers, s)

/-- `processx__sigchld_callback()` on the main thread. -/
def sigchldCallback (waitpid : Waitpid) (rounds : ℕ) (s : ChildLists) :
    Option (List (ℕ × WaitResult) × ChildLists) :=
  (s.cells childListHead).bind fun head => reapLoop waitpid rounds childListHead head.next s

/-- The `next` field of a cell. -/
def next (s : ChildLists) (a : ℕ) : Option ℕ := (s.cells a).bind Cell.next

/-- The two lists: they come to an end, they share no cell and do not contain the static ones, and
with these they are all the cells there are. -/
structure Holds (s : ChildLists) (children free : List ℕ) : Prop where
  childList : Linked s.next (s.next childListHead) children
  freeList : Linked s.next (s.next childFreeListHead) free
  distinct : (childListHead :: childFreeListHead :: (children ++ free)).Nodup
  allocated : ∀ a, (s.cells a).isSome = true ↔
    a ∈ childListHead :: childFreeListHead :: (children ++ free)

/-- The world starts with two empty lists. -/
theorem holds_empty (w : World) : (empty w).Holds [] [] := by
  have hnone : ∀ a, (empty w).next a = none := by
    intro a
    unfold empty next
    dsimp only
    split_ifs <;> rfl
  refine ⟨hnone _, hnone _, by decide, fun a => ?_⟩
  unfold empty
  dsimp only
  split_ifs with ha
  · simpa using ha
  · simpa using ha

section Writing

variable {s : ChildLists} {a : ℕ}

/-- Writing to a cell that is there. -/
theorem setNext_spec (ha : (s.cells a).isSome = true) (p : Option ℕ) :
    ∃ s', s.setNext a p = some s' ∧ s'.world = s.world ∧ s'.next = Function.update s.next a p ∧
      ∀ b, (s'.cells b).map Cell.node = (s.cells b).map Cell.node := by
  obtain ⟨cell, hcell⟩ := Option.isSome_iff_exists.mp ha
  refine ⟨{ s with cells := Function.update s.cells a (some { cell with next := p }) },
    by rw [setNext, hcell]; rfl, rfl, ?_, fun b => ?_⟩
  · funext b
    by_cases hb : b = a
    · subst hb
      simp [next]
    · simp [next, hb]
  · by_cases hb : b = a
    · subst hb
      simp [hcell]
    · simp [hb]

/-- The nodes tell which cells are there. -/
theorem isSome_of_nodes {s' : ChildLists} {b : ℕ}
    (h : (s'.cells b).map Cell.node = (s.cells b).map Cell.node) :
    (s'.cells b).isSome = (s.cells b).isSome := by
  rw [← Option.isSome_map (f := Cell.node), h, Option.isSome_map]

/-- A node that goes to the front of the free list. -/
theorem freelistAdd_spec (hhead : (s.cells childFreeListHead).isSome = true)
    (ha : (s.cells a).isSome = true) :
    ∃ s', s.freelistAdd a = some s' ∧ s'.world = s.world ∧
      s'.next = Function.update (Function.update s.next a (s.next childFreeListHead))
        childFreeListHead (some a) ∧
      ∀ b, (s'.cells b).map Cell.node = (s.cells b).map Cell.node := by
  obtain ⟨head, hcell⟩ := Option.isSome_iff_exists.mp hhead
  obtain ⟨s₁, hset₁, hworld₁, hnext₁, hnodes₁⟩ := setNext_spec ha head.next
  have hhead₁ : (s₁.cells childFreeListHead).isSome = true := by
    rw [isSome_of_nodes (hnodes₁ _)]
    exact hhead
  obtain ⟨s₂, hset₂, hworld₂, hnext₂, hnodes₂⟩ := setNext_spec hhead₁ (some a)
  refine ⟨s₂, ?_, hworld₂.trans hworld₁, ?_, fun b => (hnodes₂ b).trans (hnodes₁ b)⟩
  · rw [freelistAdd, hcell, Option.bind_some, hset₁, Option.bind_some, hset₂]
  · have hfirst : s.next childFreeListHead = head.next := by rw [next, hcell, Option.bind_some]
    rw [hnext₂, hnext₁, hfirst]

end Writing

/-- The nodes that stay, of those looked at. -/
def kept (answers : List (ℕ × WaitResult)) : List ℕ :=
  (answers.filter fun e => e.2.stays).map Prod.fst

/-- The nodes that are taken out. -/
def moved (answers : List (ℕ × WaitResult)) : List ℕ :=
  (answers.filter fun e => !e.2.stays).map Prod.fst

/-- The nodes at some addresses. -/
def nodes (s : ChildLists) (addresses : List ℕ) : List Node :=
  addresses.filterMap fun a => (s.cells a).map Cell.node

end ChildLists

/-- The work of the handler on some nodes, apart from the lists, with the answers it got. -/
def World.reapNodes (waitpid : ChildLists.Waitpid) : List Node → World → List WaitResult × World
  | [], w => ([], w)
  | node :: nodes, w =>
    let (wp, procs) := waitpid node.pid w.procs
    let w := { w with procs := procs }
    let (answers, w) := (if wp.stays then w else w.childReaped node wp).reapNodes waitpid nodes
    (wp :: answers, w)

namespace ChildLists

/-- What the loop comes to from a node `prev` on, whose list goes on with `rest`: it looks at each
node of `rest` once, the nodes that stay are linked to `prev` in their order, and those that are
taken out are before the others in the free list. It writes to no other cells. -/
structure Reaped (waitpid : Waitpid) (s : ChildLists) (prev : ℕ) (rest free : List ℕ)
    (answers : List (ℕ × WaitResult)) (s' : ChildLists) : Prop where
  asked : answers.map Prod.fst = rest
  childList : Linked s'.next (s'.next prev) (kept answers)
  freeList : Linked s'.next (s'.next childFreeListHead) ((moved answers).reverse ++ free)
  frame : ∀ a, a ∉ prev :: childFreeListHead :: rest → s'.next a = s.next a
  nodes : ∀ a, (s'.cells a).map Cell.node = (s.cells a).map Cell.node
  world : s.world.reapNodes waitpid (s.nodes rest) = (answers.map Prod.snd, s'.world)

/-- One node stays. -/
theorem Reaped.stay {waitpid : Waitpid} {s s' : ChildLists} {prev ptr : ℕ} {rest free : List ℕ}
    {answers : List (ℕ × WaitResult)} {cell : Cell} {wp : WaitResult} {procs : ℕ → Proc}
    (hptr : s.next prev = some ptr) (hprev : prev ∉ ptr :: childFreeListHead :: rest)
    (hcell : s.cells ptr = some cell) (hwait : waitpid cell.node.pid s.world.procs = (wp, procs))
    (hstays : wp.stays = true)
    (h : Reaped waitpid { s with world := { s.world with procs := procs } } ptr rest free answers
      s') : Reaped waitpid s prev (ptr :: rest) free ((ptr, wp) :: answers) s' where
  asked := congrArg (ptr :: ·) h.asked
  childList := by
    have hkept : kept ((ptr, wp) :: answers) = ptr :: kept answers := by simp [kept, hstays]
    rw [hkept]
    exact ⟨(h.frame prev hprev).trans hptr, h.childList⟩
  freeList := by
    have hmoved : moved ((ptr, wp) :: answers) = moved answers := by simp [moved, hstays]
    rw [hmoved]
    exact h.freeList
  frame a ha := h.frame a fun hmem => ha (by simp at hmem ⊢; tauto)
  nodes := h.nodes
  world := by
    have hnodes : s.nodes (ptr :: rest) = cell.node :: s.nodes rest := by
      simp [ChildLists.nodes, hcell]
    rw [hnodes, World.reapNodes, hwait]
    dsimp only
    rw [if_pos hstays]
    show (wp :: (World.reapNodes waitpid _ _).1, _) = _
    rw [show s.nodes rest =
      ChildLists.nodes { s with world := { s.world with procs := procs } } rest from rfl, h.world]
    rfl

/-- One node is taken out. -/
theorem Reaped.move {waitpid : Waitpid} {s s₁ s' : ChildLists} {prev ptr : ℕ} {rest free : List ℕ}
    {answers : List (ℕ × WaitResult)} {cell : Cell} {wp : WaitResult} {procs : ℕ → Proc}
    (hcell : s.cells ptr = some cell) (hwait : waitpid cell.node.pid s.world.procs = (wp, procs))
    (hstays : wp.stays = false)
    (hworld : s₁.world = World.childReaped { s.world with procs := procs } cell.node wp)
    (hnodes : ∀ a, (s₁.cells a).map Cell.node = (s.cells a).map Cell.node)
    (hframe : ∀ a, a ∉ prev :: childFreeListHead :: ptr :: rest → s₁.next a = s.next a)
    (h : Reaped waitpid s₁ prev rest (ptr :: free) answers s') :
    Reaped waitpid s prev (ptr :: rest) free ((ptr, wp) :: answers) s' where
  asked := congrArg (ptr :: ·) h.asked
  childList := by
    have hkept : kept ((ptr, wp) :: answers) = kept answers := by simp [kept, hstays]
    rw [hkept]
    exact h.childList
  freeList := by
    have hmoved : moved ((ptr, wp) :: answers) = ptr :: moved answers := by simp [moved, hstays]
    rw [hmoved, List.reverse_cons, List.append_assoc, List.singleton_append]
    exact h.freeList
  frame a ha := by
    refine (h.frame a fun hmem => ha ?_).trans (hframe a ha)
    simp at hmem ⊢
    tauto
  nodes a := (h.nodes a).trans (hnodes a)
  world := by
    have hrest : s₁.nodes rest = s.nodes rest := by simp [ChildLists.nodes, hnodes]
    have hfirst : s.nodes (ptr :: rest) = cell.node :: s.nodes rest := by
      simp [ChildLists.nodes, hcell]
    rw [hfirst, World.reapNodes, hwait]
    dsimp only
    rw [if_neg (by simp [hstays]), ← hworld, ← hrest, h.world]
    rfl

/-- The loop of the handler over linked lists: it asks about every child once and moves the nodes of
those that are gone to the free list. -/
theorem reapLoop_spec (waitpid : Waitpid) {s : ChildLists} {prev : ℕ} {rest free : List ℕ}
    (hrest : Linked s.next (s.next prev) rest)
    (hfree : Linked s.next (s.next childFreeListHead) free)
    (hdistinct : (prev :: childFreeListHead :: (rest ++ free)).Nodup)
    (hallocated : ∀ a ∈ prev :: childFreeListHead :: rest, (s.cells a).isSome = true)
    {rounds : ℕ} (hrounds : rest.length ≤ rounds) :
    ∃ answers s', reapLoop waitpid rounds prev (s.next prev) s = some (answers, s') ∧
      Reaped waitpid s prev rest free answers s' := by
  induction rest generalizing s prev free rounds with
  | nil =>
    have hend : s.next prev = none := hrest
    refine ⟨[], s, ?_, rfl, hend, hfree, fun _ _ => rfl, fun _ => rfl, rfl⟩
    rw [hend, reapLoop]
  | cons ptr rest ih =>
    obtain ⟨hptr, hrest⟩ := hrest
    obtain ⟨rounds, rfl⟩ : ∃ n, rounds = n + 1 := ⟨rounds - 1, by simp at hrounds; omega⟩
    have hptrSome : (s.cells ptr).isSome = true := hallocated ptr (by simp)
    obtain ⟨cell, hcell⟩ := Option.isSome_iff_exists.mp hptrSome
    have hnext : cell.next = s.next ptr := by rw [next, hcell, Option.bind_some]
    simp only [List.cons_append, List.nodup_cons, List.mem_cons, List.mem_append, not_or]
      at hdistinct
    obtain ⟨⟨hprevHead, hprevPtr, hprevRest, hprevFree⟩, ⟨hheadPtr, hheadRest, hheadFree⟩,
      ⟨hptrRest, hptrFree⟩, hlists⟩ := hdistinct
    rw [hptr, reapLoop, hcell, Option.bind_some]
    cases hwait : waitpid cell.node.pid s.world.procs with
    | mk wp procs =>
      dsimp only
      cases hstays : wp.stays with
      | true =>
        rw [if_pos rfl]
        obtain ⟨answers, s', hloop, hreaped⟩ := @ih
          { s with world := { s.world with procs := procs } } ptr free hrest hfree
          (by simp [Ne.symm hheadPtr, *]) (fun a ha => hallocated a (by simp at ha ⊢; tauto)) rounds
          (by simpa using hrounds)
        refine ⟨(ptr, wp) :: answers, s', ?_, hreaped.stay hptr ?_ hcell hwait hstays⟩
        · rw [hnext]
          exact congrArg (Option.map _) hloop
        · simp [hprevHead, hprevPtr, hprevRest]
      | false =>
        rw [if_neg (by simp)]
        obtain ⟨s₁, hadd, hworld₁, hnext₁, hnodes₁⟩ := @freelistAdd_spec
          { s with world := World.childReaped { s.world with procs := procs } cell.node wp } ptr
          (hallocated childFreeListHead (by simp)) hptrSome
        have hprevSome : (s₁.cells prev).isSome = true := by
          rw [isSome_of_nodes (hnodes₁ prev)]
          exact hallocated prev (by simp)
        obtain ⟨s₂, hset, hworld₂, hnext₂, hnodes₂⟩ := setNext_spec hprevSome cell.next
        have hnext' : s₂.next = Function.update (Function.update (Function.update s.next ptr
            (s.next childFreeListHead)) childFreeListHead (some ptr)) prev (s.next ptr) := by
          rw [hnext₂, hnext₁, hnext]
          rfl
        have hnodes : ∀ a, (s₂.cells a).map Cell.node = (s.cells a).map Cell.node := fun a =>
          (hnodes₂ a).trans (hnodes₁ a)
        have hprev' : s₂.next prev = s.next ptr := by simp [hnext']
        have hhead' : s₂.next childFreeListHead = some ptr := by
          simp [hnext', Ne.symm hprevHead]
        have hptr' : s₂.next ptr = s.next childFreeListHead := by
          simp [hnext', Ne.symm hprevPtr, Ne.symm hheadPtr]
        have hrest' : Linked s₂.next (s₂.next prev) rest := by
          rw [hprev', hnext']
          exact ((hrest.update hptrRest _).update hheadRest _).update hprevRest _
        have hfree' : Linked s₂.next (s₂.next childFreeListHead) (ptr :: free) := by
          refine ⟨hhead', ?_⟩
          rw [hptr', hnext']
          exact ((hfree.update hptrFree _).update hheadFree _).update hprevFree _
        obtain ⟨answers, s', hloop, hreaped⟩ := @ih s₂ prev (ptr :: free) hrest' hfree'
          (by simp [List.nodup_middle, *])
          (fun a ha => by
            rw [isSome_of_nodes (hnodes a)]
            exact hallocated a (by simp at ha ⊢; tauto))
          rounds (by simpa using hrounds)
        refine ⟨(ptr, wp) :: answers, s', ?_, hreaped.move hcell hwait hstays
          (hworld₂.trans hworld₁) hnodes fun a ha => ?_⟩
        · rw [hadd, Option.bind_some, hset, Option.bind_some, hnext, ← hprev', hloop]
          rfl
        · simp only [List.mem_cons, not_or] at ha
          simp [hnext', ha]

end ChildLists

/-- The work on one child, with the free list that `World` has. -/
theorem World.childExited_eq (w : World) (node : Node) (wp : WaitResult) :
    w.childExited node wp = { w.childReaped node wp with freeList := node :: w.freeList } := by
  unfold World.childExited World.childReaped
  cases w.nodeHandle node with
  | none => rfl
  | some h =>
    dsimp only
    cases (w.collectExitStatus node.status wp).handles node.status with
    | none => simp
    | some h' =>
      dsimp only
      cases h'.waitpipe1 with
      | none => simp
      | some fd => simp [World.close, World.setHandle]

/-- A handle when the handler is done with its child. -/
def Handle.reaped (h : Handle) (wp : WaitResult) : Handle := { h.collect wp with waitpipe1 := none }

/-- A handle is collected once the handler has stored an answer in it. -/
theorem Handle.collected_reaped (h : Handle) (wp : WaitResult) :
    (h.reaped wp).collected = true := by
  unfold Handle.reaped Handle.collect
  split_ifs with hcollected
  · exact hcollected
  · rfl

/-- The handle of the node gets the status, and no other handle changes. -/
theorem World.handles_childReaped (w : World) (node : Node) (wp : WaitResult) (status : Sexp) :
    (w.childReaped node wp).handles status =
      if status = node.status ∧ node.keyAlive = true then
        (w.handles status).map fun h => h.reaped wp
      else w.handles status := by
  have hsame : (w.childReaped node wp).handles = (w.childExited node wp).handles := by
    rw [w.childExited_eq]
  rw [hsame]
  obtain ⟨hnode, heq⟩ | ⟨h, hnode, hpipe, heq⟩ | ⟨h, fd, hnode, _, heq⟩ :=
    childExited_cases w node wp
  · rw [heq]
    split_ifs with hs
    · have hnone : w.handles status = none := by
        rw [World.nodeHandle, if_pos hs.2] at hnode
        rw [hs.1, hnode]
      simp [hnone]
    · rfl
  all_goals
    have halive : node.keyAlive = true := by
      by_contra hdead
      rw [World.nodeHandle, if_neg hdead] at hnode
      cases hnode
    have hh := handles_of_nodeHandle hnode
    rw [heq]
  · show (w.collectExitStatus node.status wp).handles status = _
    rw [handles_collectExitStatus]
    by_cases hs : status = node.status
    · subst hs
      have hpipe' : (h.collect wp).waitpipe1 = none := by
        unfold Handle.collect
        split_ifs
        · exact hpipe
        · exact hpipe
      rw [if_pos rfl, if_pos ⟨rfl, halive⟩, hh]
      simp [Handle.reaped, ← hpipe']
    · rw [if_neg hs, if_neg fun hboth => hs hboth.1]
  · by_cases hs : status = node.status
    · subst hs
      rw [if_pos ⟨rfl, halive⟩, hh]
      simp [World.setHandle, Handle.reaped]
    · have hother : ∀ w₁ : World, (w₁.setHandle node.status
          (some { h.collect wp with waitpipe1 := none })).handles status = w₁.handles status :=
        fun w₁ => if_neg hs
      rw [hother, if_neg fun hboth => hs hboth.1]
      show (w.collectExitStatus node.status wp).handles status = _
      rw [handles_collectExitStatus, if_neg hs]

/-- One step of the work on some nodes. -/
def World.reapNode (waitpid : ChildLists.Waitpid) (node : Node) (w : World) : WaitResult × World :=
  let (wp, procs) := waitpid node.pid w.procs
  let w := { w with procs := procs }
  (wp, if wp.stays then w else w.childReaped node wp)

/-- The handler treats the first node and goes on with the others. -/
theorem World.reapNodes_cons (waitpid : ChildLists.Waitpid) (node : Node) (nodes : List Node)
    (w : World) : w.reapNodes waitpid (node :: nodes) =
      ((w.reapNode waitpid node).1 :: ((w.reapNode waitpid node).2.reapNodes waitpid nodes).1,
        ((w.reapNode waitpid node).2.reapNodes waitpid nodes).2) := rfl

/-- What one node's turn does to the handles: only the node's own changes, and only when its child
is gone and its key alive. -/
theorem World.handles_reapNode (waitpid : ChildLists.Waitpid) (node : Node) (w : World)
    (status : Sexp) : (w.reapNode waitpid node).2.handles status =
      if (w.reapNode waitpid node).1.stays = false ∧ status = node.status ∧ node.keyAlive = true
        then (w.handles status).map fun h => h.reaped (w.reapNode waitpid node).1
      else w.handles status := by
  unfold World.reapNode
  dsimp only
  cases hstays : (waitpid node.pid w.procs).1.stays with
  | true => simp
  | false =>
    rw [if_neg (by simp), World.handles_childReaped]
    simp

/-- A handle stays, and if it has a status it keeps one. -/
theorem World.reapNodes_keeps (waitpid : ChildLists.Waitpid) (nodes : List Node) {w : World}
    {status : Sexp} {h : Handle} (hh : w.handles status = some h) :
    ∃ h', (w.reapNodes waitpid nodes).2.handles status = some h' ∧
      (h.collected = true → h'.collected = true) := by
  induction nodes generalizing w h with
  | nil => exact ⟨h, hh, id⟩
  | cons node nodes ih =>
    rw [World.reapNodes_cons]
    have hstep := World.handles_reapNode waitpid node w status
    rw [hh] at hstep
    split_ifs at hstep with hthis
    · obtain ⟨h', hh', hkeeps⟩ := ih hstep
      exact ⟨h', hh', fun _ => hkeeps (h.collected_reaped _)⟩
    · exact ih hstep

/-- A handle whose status is not that of one of the nodes. -/
theorem World.reapNodes_other (waitpid : ChildLists.Waitpid) (nodes : List Node) (w : World)
    {status : Sexp} (hother : status ∉ nodes.map Node.status) :
    (w.reapNodes waitpid nodes).2.handles status = w.handles status := by
  induction nodes generalizing w with
  | nil => rfl
  | cons node nodes ih =>
    rw [List.map_cons, List.mem_cons, not_or] at hother
    rw [World.reapNodes_cons, ih _ hother.2, World.handles_reapNode,
      if_neg fun hthis => hother.1 hthis.2.1]

/-- What the handler has stored for a child that has exited: the handle has a status, and if no
other node has the same handle it is the one that `waitpid()` gave. -/
def World.Stored (w' : World) (statuses : List Sexp) (node : Node) (wp : WaitResult)
    (h : Handle) : Prop :=
  (∃ h', w'.handles node.status = some h' ∧ h'.collected = true) ∧
    (statuses.Nodup → w'.handles node.status = some (h.reaped wp))

/-- Every answer that ends a child is stored in the handle of its node. -/
theorem World.reapNodes_stored (waitpid : ChildLists.Waitpid) (nodes : List Node) (w : World) :
    ∀ e ∈ nodes.zip (w.reapNodes waitpid nodes).1, e.2.stays = false →
      ∀ h, w.nodeHandle e.1 = some h →
        (w.reapNodes waitpid nodes).2.Stored (nodes.map Node.status) e.1 e.2 h := by
  induction nodes generalizing w with
  | nil => exact fun e he => absurd he List.not_mem_nil
  | cons node nodes ih =>
    intro e he hgone h hnode
    have hh := handles_of_nodeHandle hnode
    have halive : e.1.keyAlive = true := by
      by_contra hdead
      rw [World.nodeHandle, if_neg hdead] at hnode
      cases hnode
    have hstep := World.handles_reapNode waitpid node w e.1.status
    rw [World.reapNodes_cons] at he ⊢
    rw [hh] at hstep
    rcases List.mem_cons.mp he with rfl | hrest
    · -- this node; what comes later does not change what is stored
      rw [if_pos ⟨hgone, rfl, halive⟩] at hstep
      refine ⟨?_, fun hnodup => ?_⟩
      · obtain ⟨h', hh', hkeeps⟩ := World.reapNodes_keeps waitpid nodes hstep
        exact ⟨h', hh', hkeeps (h.collected_reaped _)⟩
      · rw [World.reapNodes_other waitpid nodes _ (List.nodup_cons.mp hnodup).1]
        exact hstep
    · have hmem : e.1 ∈ nodes := (List.of_mem_zip hrest).1
      have hsome : ∃ h₁, (w.reapNode waitpid node).2.nodeHandle e.1 = some h₁ := by
        unfold World.nodeHandle
        rw [if_pos halive]
        split_ifs at hstep
        · exact ⟨_, hstep⟩
        · exact ⟨_, hstep⟩
      obtain ⟨h₁, hnode₁⟩ := hsome
      obtain ⟨hcollected, hexact⟩ := ih _ e hrest hgone h₁ hnode₁
      refine ⟨hcollected, fun hnodup => ?_⟩
      obtain ⟨hnot, hnodup⟩ := List.nodup_cons.mp hnodup
      have hne : e.1.status ≠ node.status := fun heq => hnot (heq ▸ List.mem_map_of_mem hmem)
      rw [if_neg fun hthis => hne hthis.2.1] at hstep
      have hsame : h₁ = h := Option.some.inj ((handles_of_nodeHandle hnode₁).symm.trans hstep)
      rw [hexact hnodup, hsame]

namespace ChildLists

variable {s : ChildLists} {children free : List ℕ}

/-- What a run of the handler does: it asks once for each child in the list, in order. The children
that have been reaped and those that do not exist are now in the free list, before the nodes that
were there, and all others are in the child list as before. The nodes themselves are the same, and
for the nodes that were moved the statuses are stored. -/
structure HandlerRun (waitpid : Waitpid) (s : ChildLists) (children free : List ℕ)
    (answers : List (ℕ × WaitResult)) (s' : ChildLists) : Prop where
  asked : answers.map Prod.fst = children
  holds : s'.Holds (kept answers) ((moved answers).reverse ++ free)
  nodes : ∀ a, (s'.cells a).map Cell.node = (s.cells a).map Cell.node
  world : s.world.reapNodes waitpid (s.nodes children) = (answers.map Prod.snd, s'.world)
  stored : ∀ a wp, (a, wp) ∈ answers → wp.stays = false → ∀ cell, s.cells a = some cell →
    ∀ h, s.world.nodeHandle cell.node = some h →
      s'.world.Stored ((s.nodes children).map Node.status) cell.node wp h

/-- The nodes that stay and those that are moved are all the nodes. -/
theorem kept_append_moved (answers : List (ℕ × WaitResult)) :
    (kept answers ++ moved answers).Perm (answers.map Prod.fst) := by
  unfold kept moved
  rw [← List.map_append]
  exact (List.filter_append_perm _ answers).map Prod.fst

/-- The nodes of cells that are there, with the answers for them. -/
theorem mem_zip_nodes {answers : List (ℕ × WaitResult)}
    (hsome : ∀ a ∈ answers.map Prod.fst, (s.cells a).isSome = true) {a : ℕ} {wp : WaitResult}
    (hmem : (a, wp) ∈ answers) {cell : Cell} (hcell : s.cells a = some cell) :
    (cell.node, wp) ∈ (s.nodes (answers.map Prod.fst)).zip (answers.map Prod.snd) := by
  induction answers with
  | nil => cases hmem
  | cons e answers ih =>
    obtain ⟨first, hfirst⟩ := Option.isSome_iff_exists.mp (hsome e.1 (by simp))
    have hnodes : s.nodes ((e :: answers).map Prod.fst) =
        first.node :: s.nodes (answers.map Prod.fst) := by
      simp [ChildLists.nodes, hfirst]
    rw [hnodes, List.map_cons, List.zip_cons_cons]
    rcases List.mem_cons.mp hmem with rfl | hrest
    · rw [hcell] at hfirst
      rw [Option.some.inj hfirst]
      exact List.mem_cons_self
    · exact List.mem_cons_of_mem _ (ih (fun b hb => hsome b (List.mem_cons_of_mem _ hb)) hrest)

/-- **A run of the handler** comes to its end and does just this, for any lists and any answers. -/
theorem Holds.sigchldCallback (h : s.Holds children free) (waitpid : Waitpid) {rounds : ℕ}
    (hrounds : children.length ≤ rounds) :
    ∃ answers s', sigchldCallback waitpid rounds s = some (answers, s') ∧
      HandlerRun waitpid s children free answers s' := by
  have hdistinct : (childListHead :: childFreeListHead :: (children ++ free)).Nodup := h.distinct
  have hallocated : ∀ a ∈ childListHead :: childFreeListHead :: children,
      (s.cells a).isSome = true := by
    intro a ha
    refine (h.allocated a).mpr ?_
    simp only [List.mem_cons, List.mem_append] at ha ⊢
    tauto
  obtain ⟨answers, s', hloop, hreaped⟩ :=
    reapLoop_spec waitpid h.childList h.freeList hdistinct hallocated hrounds
  have hperm : (kept answers ++ ((moved answers).reverse ++ free)).Perm (children ++ free) := by
    rw [← List.append_assoc, ← hreaped.asked]
    refine (List.Perm.trans ?_ (kept_append_moved answers)).append_right free
    exact ((moved answers).reverse_perm).append_left _
  have hall := (hperm.cons childFreeListHead).cons childListHead
  refine ⟨answers, s', ?_, hreaped.asked, ⟨hreaped.childList, hreaped.freeList, ?_, fun a => ?_⟩,
    hreaped.nodes, hreaped.world, ?_⟩
  · obtain ⟨head, hhead⟩ := Option.isSome_iff_exists.mp (hallocated childListHead (by simp))
    have hnext : s.next childListHead = head.next := by rw [next, hhead, Option.bind_some]
    rw [ChildLists.sigchldCallback, hhead, Option.bind_some, ← hnext, hloop]
  · exact hall.nodup_iff.mpr hdistinct
  · rw [isSome_of_nodes (hreaped.nodes a), h.allocated a]
    exact hall.mem_iff.symm
  · intro a wp hmem hgone cell hcell handle hnode
    have hstored := s.world.reapNodes_stored waitpid (s.nodes children)
    rw [hreaped.world] at hstored
    refine hstored (cell.node, wp) ?_ hgone handle hnode
    have hsome : ∀ b ∈ answers.map Prod.fst, (s.cells b).isSome = true := fun b hb =>
      hallocated b (by simp [← hreaped.asked, hb])
    have hzip := mem_zip_nodes hsome hmem hcell
    rwa [hreaped.asked] at hzip

/-- Adding a child puts a new node in front of the list, or there is no room and nothing
happens. -/
theorem Holds.childAdd (h : s.Holds children free) (room : Option ℕ) (pid : ℕ) (status : Sexp) :
    (childAdd room pid status s = some (1, s)) ∨
    ∃ child s', childAdd room pid status s = some (0, s') ∧ s'.Holds (child :: children) free := by
  unfold ChildLists.childAdd
  cases hroom : room.filter fun a => (s.cells a).isNone with
  | none => exact Or.inl rfl
  | some child =>
    right
    obtain ⟨-, hfree⟩ := Option.filter_eq_some_iff.mp hroom
    have hnot : child ∉ childListHead :: childFreeListHead :: (children ++ free) := by
      rw [← h.allocated child]
      simpa using hfree
    have hheadSome : (s.cells childListHead).isSome = true := (h.allocated _).mpr (by simp)
    obtain ⟨head, hhead⟩ := Option.isSome_iff_exists.mp hheadSome
    simp only [List.mem_cons, List.mem_append, not_or] at hnot
    obtain ⟨hnotHead, hnotFreeHead, hnotChildren, hnotFree⟩ := hnot
    have hnext : s.next childListHead = head.next := by rw [next, hhead, Option.bind_some]
    obtain ⟨s', hset, -, hnext', hnodes'⟩ := @setNext_spec
      { s with cells := Function.update s.cells child (some ⟨⟨pid, status, true⟩, head.next⟩) }
      childListHead (by simpa [Ne.symm hnotHead] using hheadSome) (some child)
    have hupdated : s'.next = Function.update (Function.update s.next child head.next)
        childListHead (some child) := by
      rw [hnext']
      congr 1
      funext b
      by_cases hb : b = child
      · subst hb
        simp [next]
      · simp [next, hb]
    have hdistinct := h.distinct
    simp only [List.nodup_cons, List.mem_cons, List.mem_append, not_or] at hdistinct
    obtain ⟨⟨hheads, hheadChildren, hheadFree⟩, ⟨hfreeHeadChildren, hfreeHeadFree⟩, hlists⟩ :=
      hdistinct
    refine ⟨child, s', ?_, ⟨⟨?_, ?_⟩, ?_, ?_, fun a => ?_⟩⟩
    · dsimp only
      rw [hhead, Option.bind_some, hset]
      rfl
    · simp [hupdated]
    · rw [hupdated, Function.update_of_ne hnotHead, Function.update_self, ← hnext]
      exact (h.childList.update hnotChildren _).update hheadChildren _
    · rw [hupdated, Function.update_of_ne (Ne.symm hheads),
        Function.update_of_ne (Ne.symm hnotFreeHead)]
      exact (h.freeList.update hnotFree _).update hheadFree _
    · simp [Ne.symm hnotHead, Ne.symm hnotFreeHead, *]
    · rw [isSome_of_nodes (hnodes' a)]
      by_cases ha : a = child
      · subst ha
        simp
      · simp [ha, h.allocated a]

/-- The loop that frees the nodes of the free list. -/
theorem freelistFreeLoop_spec {p : Option ℕ} (hlinked : Linked s.next p free)
    (hsome : ∀ a ∈ free, (s.cells a).isSome = true) {rounds : ℕ} (hrounds : free.length ≤ rounds) :
    ∃ s', freelistFreeLoop rounds p s = some s' ∧
      ∀ a, s'.cells a = if a ∈ free then none else s.cells a := by
  induction free generalizing s p rounds with
  | nil =>
    have hend : p = none := hlinked
    rw [hend, freelistFreeLoop]
    exact ⟨s, rfl, fun a => rfl⟩
  | cons ptr free ih =>
    have hnodup := List.nodup_cons.mp hlinked.nodup
    obtain ⟨rfl, hrest⟩ := hlinked
    obtain ⟨rounds, rfl⟩ : ∃ n, rounds = n + 1 := ⟨rounds - 1, by simp at hrounds; omega⟩
    obtain ⟨cell, hcell⟩ := Option.isSome_iff_exists.mp (hsome ptr (by simp))
    have hnext : cell.next = s.next ptr := by rw [next, hcell, Option.bind_some]
    have hother : ∀ a ∈ free, a ≠ ptr := fun a ha heq => hnodup.1 (heq ▸ ha)
    rw [freelistFreeLoop, hcell, Option.bind_some, hnext]
    obtain ⟨s', hloop, hcells⟩ := @ih { s with cells := Function.update s.cells ptr none }
      (s.next ptr) (hrest.congr fun a ha => by simp [next, hother a ha])
      (fun a ha => by simpa [hother a ha] using hsome a (List.mem_cons_of_mem _ ha)) rounds
      (by simpa using hrounds)
    refine ⟨s', hloop, fun a => ?_⟩
    rw [hcells a]
    by_cases ha : a = ptr
    · subst ha
      simp
    · simp [ha]

/-- Freeing the free list leaves just the child list. -/
theorem Holds.freelistFree (h : s.Holds children free) {rounds : ℕ}
    (hrounds : free.length ≤ rounds) :
    ∃ s', freelistFree rounds s = some s' ∧ s'.Holds children [] := by
  have hdistinct := h.distinct
  simp only [List.nodup_cons, List.mem_cons, List.mem_append, not_or, List.nodup_append]
    at hdistinct
  obtain ⟨⟨hheads, hheadChildren, hheadFree⟩, ⟨hfreeHeadChildren, hfreeHeadFree⟩, hchildren, -,
    hapart⟩ := hdistinct
  have hsome : ∀ a ∈ free, (s.cells a).isSome = true := fun a ha =>
    (h.allocated a).mpr (by simp [ha])
  have hheadSome : (s.cells childFreeListHead).isSome = true := (h.allocated _).mpr (by simp)
  obtain ⟨head, hhead⟩ := Option.isSome_iff_exists.mp hheadSome
  have hnext : s.next childFreeListHead = head.next := by rw [next, hhead, Option.bind_some]
  obtain ⟨s₁, hloop, hcells⟩ := freelistFreeLoop_spec h.freeList hsome hrounds
  have hkeep : ∀ a, a ∉ free → s₁.next a = s.next a := fun a ha => by
    rw [next, hcells, if_neg ha, next]
  obtain ⟨s', hset, -, hnext', hnodes'⟩ := @setNext_spec s₁ childFreeListHead
    (by rw [hcells, if_neg hfreeHeadFree]; exact hheadSome) none
  refine ⟨s', ?_, ⟨?_, ?_, ?_, fun a => ?_⟩⟩
  · rw [ChildLists.freelistFree, hhead, Option.bind_some, ← hnext, hloop, Option.bind_some, hset]
  · rw [hnext', Function.update_of_ne hheads, hkeep _ hheadFree]
    refine (h.childList.congr fun a ha => ?_).update hfreeHeadChildren none
    exact hkeep a fun hmem => hapart a ha a hmem rfl
  · simp [hnext']
  · simp [*]
  · rw [isSome_of_nodes (hnodes' a), hcells]
    by_cases ha : a ∈ free
    · have hne : a ≠ childListHead ∧ a ≠ childFreeListHead ∧ a ∉ children :=
        ⟨fun heq => hheadFree (heq ▸ ha), fun heq => hfreeHeadFree (heq ▸ ha),
          fun hmem => hapart a hmem a ha rfl⟩
      simp [ha, hne]
    · simp [ha, h.allocated a]

/-- The calls that change the lists. -/
inductive ListCall
  | add (room : Option ℕ) (pid : ℕ) (status : Sexp)
  | handler (waitpid : Waitpid)
  | free

/-- One call. -/
def ListCall.run (rounds : ℕ) : ListCall → ChildLists → Option ChildLists
  | .add room pid status, s => (ChildLists.childAdd room pid status s).map Prod.snd
  | .handler waitpid, s => (ChildLists.sigchldCallback waitpid rounds s).map Prod.snd
  | .free, s => ChildLists.freelistFree rounds s

/-- Calls in any order. -/
def runCalls (rounds : ℕ) : List ListCall → ChildLists → Option ChildLists
  | [], s => some s
  | call :: calls, s => (call.run rounds s).bind (runCalls rounds calls)

/-- A call keeps the lists well-formed, and makes them longer by one node at most. -/
theorem Holds.call (h : s.Holds children free) (call : ListCall) {rounds : ℕ}
    (hrounds : children.length + free.length ≤ rounds) :
    ∃ s' children' free', call.run rounds s = some s' ∧ s'.Holds children' free' ∧
      children'.length + free'.length ≤ children.length + free.length + 1 := by
  cases call with
  | add room pid status =>
    rcases h.childAdd room pid status with hnone | ⟨child, s', hadd, hs'⟩
    · exact ⟨s, children, free, congrArg (Option.map Prod.snd) hnone, h, Nat.le_succ _⟩
    · refine ⟨s', child :: children, free, congrArg (Option.map Prod.snd) hadd, hs', ?_⟩
      rw [List.length_cons]
      omega
  | handler waitpid =>
    have henough : children.length ≤ rounds := by omega
    obtain ⟨answers, s', hcall, hrun⟩ := h.sigchldCallback waitpid henough
    refine ⟨s', _, _, congrArg (Option.map Prod.snd) hcall, hrun.holds, ?_⟩
    have hlength := (kept_append_moved answers).length_eq
    rw [hrun.asked, List.length_append] at hlength
    rw [List.length_append, List.length_reverse]
    omega
  | free =>
    have henough : free.length ≤ rounds := by omega
    obtain ⟨s', hcall, hs'⟩ := h.freelistFree henough
    refine ⟨s', children, [], hcall, hs', ?_⟩
    rw [List.length_nil]
    omega

/-- The two lists stay well formed along any sequence of calls, and every call returns. -/
theorem Holds.runCalls (h : s.Holds children free) (calls : List ListCall) {rounds : ℕ}
    (hrounds : children.length + free.length + calls.length ≤ rounds) :
    ∃ s' children' free', runCalls rounds calls s = some s' ∧ s'.Holds children' free' := by
  induction calls generalizing s children free with
  | nil => exact ⟨s, children, free, rfl, h⟩
  | cons call calls ih =>
    rw [List.length_cons] at hrounds
    have henough : children.length + free.length ≤ rounds := by omega
    obtain ⟨s₁, children₁, free₁, hcall, h₁, hlength⟩ := h.call call henough
    obtain ⟨s', children', free', hrun, hs'⟩ := ih h₁ (by omega)
    refine ⟨s', children', free', ?_, hs'⟩
    rw [ChildLists.runCalls, hcall, Option.bind_some, hrun]

/-- **The surgery on the lists.** From well-formed lists, a run of the handler ends and does what
it is for, whatever the answers are; and any sequence of calls ends with well-formed lists. -/
theorem childLists_surgery (h : s.Holds children free) :
    (∀ waitpid rounds, children.length ≤ rounds → ∃ answers s',
        ChildLists.sigchldCallback waitpid rounds s = some (answers, s') ∧
          HandlerRun waitpid s children free answers s') ∧
      ∀ calls rounds, children.length + free.length + calls.length ≤ rounds →
        ∃ s' children' free', ChildLists.runCalls rounds calls s = some s' ∧
          s'.Holds children' free' :=
  ⟨fun waitpid _ hrounds => h.sigchldCallback waitpid hrounds,
    fun calls _ hrounds => h.runCalls calls hrounds⟩

/-- Two children that are reaped in one run of the handler, and then freed. -/
theorem childLists_surgery_two : ∃ s children free,
    ChildLists.runCalls 4 [.add (some 2) 10 0, .add (some 3) 11 1,
      .handler fun _ procs => (.exited (.exited 0), procs), .free] (empty {}) = some s ∧
        s.Holds children free :=
  (childLists_surgery (holds_empty {})).2 _ 4 (by decide)

end ChildLists

/-- `waitpid(pid, &wstat, WNOHANG)` as it is in `World`. -/
def nohang : ChildLists.Waitpid := fun pid procs =>
  let (wp, w) := World.waitNohang { procs := procs } pid
  (wp, w.procs)

/-- `waitpid(WNOHANG)` in the world is `waitpid(WNOHANG)` in its table of processes. -/
theorem waitNohang_eq (w : World) (pid : ℕ) :
    w.waitNohang pid =
      ((nohang pid w.procs).1, { w with procs := (nohang pid w.procs).2 }) := by
  unfold nohang World.waitNohang
  dsimp only
  cases w.procs pid <;> rfl

/-- The same state with these lists. -/
def World.withLists (w : World) (children free : List Node) : World :=
  { w with childList := children, freeList := free }

/-- The work on a child does not look at the lists. -/
theorem World.childReaped_withLists (w : World) (children free : List Node) (node : Node)
    (wp : WaitResult) : (w.withLists children free).childReaped node wp =
      (w.childReaped node wp).withLists children free := by
  have hcollect : (w.withLists children free).collectExitStatus node.status wp =
      (w.collectExitStatus node.status wp).withLists children free := by
    unfold World.collectExitStatus
    show (match w.handles node.status with | none => _ | some h => _) = _
    cases w.handles node.status with
    | none => rfl
    | some h =>
      dsimp only
      split_ifs
      · rfl
      · cases h.ptyChildFd <;> rfl
  unfold World.childReaped
  rw [hcollect]
  show (match w.nodeHandle node with | none => _ | some _ => _) = _
  cases w.nodeHandle node with
  | none => rfl
  | some h =>
    dsimp only
    show (match (w.collectExitStatus node.status wp).handles node.status with
      | none => _ | some h => _) = _
    cases (w.collectExitStatus node.status wp).handles node.status with
    | none => rfl
    | some h' =>
      dsimp only
      cases h'.waitpipe1 <;> rfl

/-- The loop of `World` is the work on the nodes, with its own lists. -/
theorem World.reapChildren_eq (nodes : List Node) (w : World) (children free : List Node) :
    (w.withLists children free).reapChildren nodes =
      (((nodes.zip (w.reapNodes nohang nodes).1).filter fun e => e.2.stays).map Prod.fst,
        (w.reapNodes nohang nodes).2.withLists children
          ((((nodes.zip (w.reapNodes nohang nodes).1).filter fun e => !e.2.stays).map
            Prod.fst).reverse ++ free)) := by
  induction nodes generalizing w free with
  | nil => rfl
  | cons node nodes ih =>
    have hstep : w.reapNode nohang node = ((nohang node.pid w.procs).1,
      if (nohang node.pid w.procs).1.stays then { w with procs := (nohang node.pid w.procs).2 }
      else World.childReaped { w with procs := (nohang node.pid w.procs).2 } node
        (nohang node.pid w.procs).1) := rfl
    have hanswer : (w.withLists children free).waitNohang node.pid =
        ((nohang node.pid w.procs).1,
          World.withLists { w with procs := (nohang node.pid w.procs).2 } children free) :=
      waitNohang_eq _ _
    rw [World.reapChildren, hanswer, World.reapNodes_cons, hstep]
    have hexited : ∀ wp, (World.withLists { w with procs := (nohang node.pid w.procs).2 } children
        free).childExited node wp =
          (World.childReaped { w with procs := (nohang node.pid w.procs).2 } node wp).withLists
            children (node :: free) := by
      intro wp
      rw [World.childExited_eq, World.childReaped_withLists]
      rfl
    have hnoError : (nohang node.pid w.procs).1 ≠ .error := by
      unfold nohang World.waitNohang
      dsimp only
      cases w.procs node.pid <;> simp
    generalize (nohang node.pid w.procs).1 = wp at hnoError hexited ⊢
    cases wp with
    | none =>
      dsimp only
      rw [ih]
      simp [WaitResult.stays]
    | error => exact absurd rfl hnoError
    | exited stat =>
      dsimp only
      rw [hexited, ih]
      simp [WaitResult.stays]
    | echild =>
      dsimp only
      rw [hexited, ih]
      simp [WaitResult.stays]

namespace ChildLists

/-- **The lists in memory are the lists of `World`.** If `World` has the nodes of both lists, the
handler of `World` and the one in memory come to the same lists and the same state. -/
theorem Holds.refines {s : ChildLists} {children free : List ℕ} (h : s.Holds children free)
    {rounds : ℕ} (hrounds : children.length ≤ rounds) :
    ∃ s' children' free', (ChildLists.sigchldCallback nohang rounds s).map Prod.snd = some s' ∧
      s'.Holds children' free' ∧
      World.reapChildren (s.nodes children)
          (s.world.withLists (s.nodes children) (s.nodes free)) =
        (s'.nodes children', s'.world.withLists (s.nodes children) (s'.nodes free')) := by
  obtain ⟨answers, s', hcall, hrun⟩ := h.sigchldCallback nohang hrounds
  refine ⟨s', _, _, congrArg (Option.map Prod.snd) hcall, hrun.holds, ?_⟩
  have hsome : ∀ a ∈ answers.map Prod.fst, (s.cells a).isSome = true := by
    intro a ha
    rw [hrun.asked] at ha
    exact (h.allocated a).mpr (by simp [ha])
  have hsame : ∀ addresses, s'.nodes addresses = s.nodes addresses := by
    intro addresses
    simp [ChildLists.nodes, hrun.nodes]
  have hzip : ∀ p : WaitResult → Bool, (((s.nodes children).zip (answers.map Prod.snd)).filter
      fun e => p e.2).map Prod.fst = s.nodes ((answers.filter fun e => p e.2).map Prod.fst) := by
    intro p
    rw [← hrun.asked]
    clear hrun hcall
    induction answers with
    | nil => rfl
    | cons e answers ih =>
      obtain ⟨cell, hcell⟩ := Option.isSome_iff_exists.mp (hsome e.1 (by simp))
      have hrest := ih fun a ha => hsome a (List.mem_cons_of_mem _ ha)
      have hnodes : ∀ addresses, s.nodes (e.1 :: addresses) = cell.node :: s.nodes addresses := by
        intro addresses
        simp [ChildLists.nodes, hcell]
      rw [List.map_cons, List.map_cons, hnodes, List.zip_cons_cons, List.filter_cons,
        List.filter_cons]
      split_ifs
      · rw [List.map_cons, List.map_cons, hnodes, hrest]
      · exact hrest
  have hreverse : s.nodes ((moved answers).reverse ++ free) =
      (s.nodes (moved answers)).reverse ++ s.nodes free := by
    simp [ChildLists.nodes]
  rw [World.reapChildren_eq, hrun.world, hsame, hsame, hreverse]
  exact congrArg₂ Prod.mk (hzip _)
    (congrArg (fun l => s'.world.withLists _ (l.reverse ++ _)) (hzip fun wp => !wp.stays))

end ChildLists

end Processx
