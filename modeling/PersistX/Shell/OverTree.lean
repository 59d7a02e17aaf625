import PersistX.Shell.Restart
import PersistX.Btree.Calls

/-!
# PersistX — the shell on its B+ tree

`Session` takes the index for a map and takes it as given how many pages an insert
allocates. `Indexed` puts the B+ tree beside it: each turn of a session makes the calls on
the tree that the code makes, the tree takes its pages from the page counter of the
shell, and the pages that the session counts for it are those that the tree takes. `get`
and `scan` go through the tree.

Main result: `Indexed.answers` — after any run, `get` gives what the store has, and `scan`
lists the keys of the store in its range, each once and in order, with their values.
-/

namespace PersistX

open PageOps LawfulPageOps DataPageOps Transition Btree

-- ---------------------------------------------------------------------------
-- The calls of the code
-- ---------------------------------------------------------------------------

namespace Shell

/-- What a stage of a command asks of the index. -/
def stageCalls (s : Shell Page) : CommandStage → List IndexCall
  | .stored key rid _ _ => [.insert key.toInt rid]
  | .erase key _ none _ _ => [.remove key.toInt]
  | .erased key rid _ record _ _ =>
    let newRid := (s.storeValue record).2
    if newRid = rid then [] else [.remove key.toInt, .insert key.toInt newRid]
  | _ => []

/-- The page counter when it does so. -/
def stageNext (s : Shell Page) : CommandStage → Nat
  | .erased _ _ _ record _ _ => (s.storeValue record).1.nextPageId
  | _ => s.nextPageId

/-- What the undo loop asks of the index for the record at `u`. -/
def undoCalls (s : Shell Page) (u : Nat) : List IndexCall :=
  match (s.db.lm.readRecordAtLsn u).2.map Record.body with
  | some (.update p slot old new key) =>
    if old = [] then [.remove key] else if new = [] then [.insert key ⟨p, slot⟩] else []
  | _ => []

/-- `fetch_value`, behind the test of the RID. -/
def answerAt (s : Shell Page) (rid : Rid) : Answer :=
  if rid.isValid then
    match s.db.read rid.pageId rid.slotId with
    | none => .error
    | some data => .value (recordValue data)
  else .notFound

/-- `cmd_get` on the tree. -/
def cmdGet (s : Shell Page) (tree : BTreeIndex) (key : Int64) : Option Answer :=
  (tree.search key.toInt).map s.answerAt

/-- A line of the table that `scan` prints. -/
structure Row where
  key : Int
  value : Bytes
  rid : Rid
  deriving DecidableEq, Repr

/-- The body of the loop of `cmd_scan`: a RID without a record is passed over. -/
def rowAt (s : Shell Page) (rid : Rid) : Option Row :=
  (s.db.read rid.pageId rid.slotId).map fun data => ⟨recordKey data, recordValue data, rid⟩

/-- `cmd_scan` on the tree. -/
def cmdScan (s : Shell Page) (tree : BTreeIndex) (beginKey endKey : Int64) : Option (List Row) :=
  (tree.rangeScan beginKey.toInt endKey.toInt).map fun rids => rids.filterMap s.rowAt

end Shell

/-- The body of the inner loop of `init_storage`. -/
def rebuildCall (heap : Nat → Page) (rid : Rid) : Option IndexCall :=
  match readRecord (heap rid.pageId) rid.slotId with
  | none => none
  | some data => if data.length < 8 then none else some (.insert (recordKey data) rid)

/-- All inserts of `init_storage`. -/
def rebuildCalls (heap : Nat → Page) (pages : List Nat) : List IndexCall :=
  (scannedRids heap pages).filterMap (rebuildCall heap)

/-- `index_->create()` where the page counter is at `n`. -/
def freshTree (n : Nat) : BTreeIndex := BTreeIndex.create ⟨fun _ => none, n, none⟩

/-- The pages that the index takes in the turn. -/
def Session.Event.grow : Session.Event → Option Nat
  | .rebuild grow => some grow
  | .abortStep grow => some grow
  | .work (.next grow) => some grow
  | _ => none

/-- A session with the tree of its index. -/
structure Indexed where
  watched : Watched
  tree : BTreeIndex

namespace Indexed

def init : Indexed := ⟨.init, ⟨fun _ => none, 0, none⟩⟩

/-- The tree as a turn finds it, and what the turn asks of it. -/
def turn (x : Indexed) (e : Session.Event) : Option (BTreeIndex × List IndexCall) :=
  match x.watched.session.phase, e with
  | .down [] _, .open => some (freshTree x.watched.session.filePages, [])
  | .recovering s records n, .rebuild _ =>
    some (freshTree (max n (maxPageId records)), rebuildCalls s.bm.page (dataPages records))
  | .running m, .work (.next _) => some (x.tree.withNext (m.shell.stageNext m.stage), m.shell.stageCalls m.stage)
  | .aborting m _ _ (some u), .abortStep _ => some (x.tree.withNext m.shell.nextPageId, m.shell.undoCalls u)
  | _, _ => none

/-- The turn is one of the session, and its calls come to an end on the tree, which takes as many
pages as the turn says. -/
def step (x : Indexed) (e : Session.Event) : Option Indexed :=
  match x.turn e with
  | none => (x.watched.step e).map fun y => ⟨y, x.tree⟩
  | some (tree, calls) => (callAll tree calls).bind fun tree' =>
    if e.grow.all fun k => k == tree'.nextPageId - tree.nextPageId then
      (x.watched.step e).map fun y => ⟨y, tree'⟩
    else none

/-- What `Watched.get_eq_store` asks of a turn; and no split of the tree loses a `parent_id`. -/
def keeps (x : Indexed) (e : Session.Event) : Bool :=
  x.watched.session.keeps e && (x.turn e).all fun c => callsOk c.1 c.2

end Indexed

-- ---------------------------------------------------------------------------
-- The index built anew
-- ---------------------------------------------------------------------------

variable {n : Nat} {st : Store} {m m' : Machine} {s s' : Shell Page} {heap : Nat → Page} {index : IndexMap}
  {stage stage' : CommandStage} {tree tree' : BTreeIndex} {grow : Nat}

/-- The inserts of `init_storage` leave what `rebuildIndex` does. -/
theorem foldl_rebuildCalls (rids : List Rid) :
    (rids.filterMap (rebuildCall heap)).foldl IndexCall.apply index = rids.foldl (indexRid heap) index := by
  induction rids generalizing index with
  | nil => rfl
  | cons rid rids ih =>
    rw [List.filterMap_cons, List.foldl_cons, indexRid, rebuildCall]
    cases readRecord (heap rid.pageId) rid.slotId with
    | none => exact ih
    | some data =>
      by_cases hlen : data.length < 8
      · simp only [if_pos hlen]
        exact ih
      · simp only [if_neg hlen]
        exact ih

/-- A record on a page that may have an id has a RID that is valid. -/
theorem isValid_of_read {rid : Rid} {x : Page} {data : Bytes} (hw : Wf x) (hp : rid.pageId < invalidPageId)
    (hread : readRecord x rid.slotId = some data) : rid.isValid = true := by
  have hlive := (Page.live_iff_read hw).mpr ⟨data, hread⟩
  have hslot := hlive.1
  have hcount := x.slotCount_lt
  have hinvalid : invalidSlotId = 2 ^ 16 - 1 := rfl
  rw [Rid.isValid, Bool.and_eq_true, decide_eq_true_eq, decide_eq_true_eq]
  omega

theorem rebuildCalls_valid {pages : List Nat} (hw : ∀ p, Wf (heap p)) (hp : ∀ p ∈ pages, p < invalidPageId) :
    ∀ c ∈ rebuildCalls heap pages, c.valid = true := by
  intro c hc
  obtain ⟨rid, hrid, hcall⟩ := List.mem_filterMap.mp hc
  obtain ⟨p, hmem, hrid⟩ := List.mem_flatMap.mp hrid
  obtain ⟨u, -, rfl⟩ := List.mem_map.mp hrid
  rw [rebuildCall] at hcall
  split at hcall
  · cases hcall
  · rename_i data hread
    split at hcall
    · cases hcall
    · obtain rfl := Option.some.inj hcall
      exact isValid_of_read (hw p) (hp p hmem) hread

-- ---------------------------------------------------------------------------
-- One stage of a command
-- ---------------------------------------------------------------------------

theorem Shell.autoCommit_index {t : Nat} {auto : Bool} (h : s.autoCommit t auto = some s') :
    s'.db.index = s.db.index ∧ s'.nextPageId = s.nextPageId := by
  rw [Shell.autoCommit] at h
  split at h
  · obtain ⟨db, hdb, rfl⟩ := Option.map_eq_some_iff.mp h
    obtain ⟨prev, -, rfl⟩ := Option.map_eq_some_iff.mp hdb
    exact ⟨rfl, rfl⟩
  · obtain rfl := Option.some.inj h
    exact ⟨rfl, rfl⟩

theorem Shell.goOn_index {sequel : Sequel} (h : s.goOn sequel = some (s', stage')) :
    s'.db.index = s.db.index ∧ s'.nextPageId = s.nextPageId := by
  cases sequel with
  | loop t auto k i inserted =>
    obtain ⟨rfl, -⟩ := Prod.mk.inj (Option.some.inj h)
    exact ⟨rfl, rfl⟩
  | finish t auto counted =>
    obtain ⟨s₁, hcommit, h⟩ := Option.map_eq_some_iff.mp h
    have hsame := Shell.autoCommit_index hcommit
    obtain ⟨rfl, -⟩ := Prod.mk.inj h
    cases counted with
    | true => exact hsame
    | false => exact hsame

theorem Shell.storeValue_index (s : Shell Page) (record : Bytes) :
    (s.storeValue record).1.db.index = s.db.index ∧ s.nextPageId ≤ (s.storeValue record).1.nextPageId := by
  rw [Shell.storeValue]
  split
  · exact ⟨rfl, Nat.le_refl _⟩
  · exact ⟨rfl, Nat.le_succ _⟩

/-- What a stage does to the index and to the page counter. -/
structure Shell.Indexes (s s' : Shell Page) (stage : CommandStage) (grow : Nat) : Prop where
  index : s'.db.index = (s.stageCalls stage).foldl IndexCall.apply s.db.index
  counted : s.stageNext stage ≤ s'.nextPageId
  grown : ∀ key rid, .insert key rid ∈ s.stageCalls stage → s.stageNext stage + grow ≤ s'.nextPageId

theorem Shell.Indexes.quiet (hcalls : s.stageCalls stage = []) (hindex : s'.db.index = s.db.index)
    (hnext : s.stageNext stage ≤ s'.nextPageId) : Shell.Indexes s s' stage grow := by
  refine ⟨?_, hnext, fun key rid hc => ?_⟩
  · rw [hcalls]
    exact hindex
  · rw [hcalls] at hc
    cases hc

/-- **A stage makes the calls of `stageCalls`**, where `put` finds no such key. -/
theorem Shell.advance_indexes (h : s.advance grow stage = some (s', stage'))
    (hfree : ∀ key rid record sequel, stage = .stored key rid record sequel → s.db.index key.toInt = none) :
    Shell.Indexes s s' stage grow := by
  cases stage with
  | ready => cases h
  | loop t auto k i inserted =>
    cases k with
    | zero =>
      obtain ⟨s₁, hcommit, h⟩ := Option.map_eq_some_iff.mp h
      obtain ⟨hindex, hnext⟩ := Shell.autoCommit_index hcommit
      obtain ⟨rfl, -⟩ := Prod.mk.inj h
      exact .quiet rfl hindex (Nat.le_of_eq hnext.symm)
    | succ k =>
      obtain ⟨rfl, -⟩ := Prod.mk.inj (Option.some.inj h)
      exact .quiet rfl rfl (Nat.le_refl _)
  | store key record sequel =>
    obtain ⟨rfl, -⟩ := Prod.mk.inj (Option.some.inj h)
    obtain ⟨hindex, hnext⟩ := s.storeValue_index record
    exact .quiet rfl hindex hnext
  | stored key rid record sequel =>
    rw [Shell.advance, search_of_none (hfree key rid record sequel rfl), if_neg (by decide)] at h
    obtain ⟨rfl, -⟩ := Prod.mk.inj (Option.some.inj h)
    exact ⟨rfl, Nat.le_add_right _ _, fun _ _ _ => Nat.le_refl _⟩
  | erase key rid record t auto =>
    cases record with
    | none =>
      obtain ⟨rfl, -⟩ := Prod.mk.inj (Option.some.inj h)
      refine ⟨rfl, Nat.le_refl _, fun key' rid' hc => ?_⟩
      cases List.mem_singleton.mp hc
    | some record =>
      obtain ⟨rfl, -⟩ := Prod.mk.inj (Option.some.inj h)
      exact .quiet rfl rfl (Nat.le_refl _)
  | erased key rid old record t auto =>
    obtain ⟨⟨s₁, newRid⟩, hstore⟩ : ∃ x, s.storeValue record = x := ⟨_, rfl⟩
    have hindex : s₁.db.index = s.db.index := by
      have := (s.storeValue_index record).1
      rwa [hstore] at this
    have hnext : s.stageNext (.erased key rid old record t auto) = s₁.nextPageId := by
      rw [Shell.stageNext, hstore]
    simp only [Shell.advance, hstore, Option.some.injEq, Prod.mk.injEq] at h
    obtain ⟨hs, -⟩ := h
    by_cases hrid : newRid = rid
    · rw [if_pos hrid] at hs
      subst hs
      refine .quiet ?_ hindex (Nat.le_of_eq hnext)
      simp only [Shell.stageCalls, hstore]
      exact if_pos hrid
    · rw [if_neg hrid] at hs
      subst hs
      have hcalls : s.stageCalls (.erased key rid old record t auto) =
          [.remove key.toInt, .insert key.toInt newRid] := by
        simp only [Shell.stageCalls, hstore]
        exact if_neg hrid
      refine ⟨?_, ?_, fun _ _ _ => ?_⟩
      · rw [hcalls, ← hindex]
        rfl
      · rw [hnext]
        exact Nat.le_add_right _ _
      · rw [hnext]
        exact Nat.le_refl _
  | changed rid old new key sequel =>
    obtain ⟨⟨db, lsn⟩, hlog, h⟩ := Option.map_eq_some_iff.mp h
    obtain ⟨prev, -, hdb⟩ := Option.map_eq_some_iff.mp hlog
    obtain ⟨rfl, -⟩ := Prod.mk.inj h
    obtain ⟨rfl, -⟩ := Prod.mk.inj hdb
    exact .quiet rfl rfl (Nat.le_refl _)
  | logged rid lsn sequel =>
    obtain ⟨hindex, hnext⟩ := Shell.goOn_index h
    exact .quiet rfl hindex (Nat.le_of_eq hnext.symm)

/-- What `store_value` and the slots allow is inserted. -/
theorem RunInv.stageCalls_valid (h : RunInv n st m) (hok : Session.keepsStep m (.next grow) = true) :
    ∀ c ∈ m.shell.stageCalls m.stage, c.valid = true := by
  obtain ⟨heap, kv, h⟩ := h
  have hst := h.stage
  rw [Session.keepsStep, Bool.and_eq_true] at hok
  obtain ⟨-, hok⟩ := hok
  intro c hc
  cases hstage : m.stage with
  | stored key rid record sequel =>
    rw [hstage] at hc hst
    obtain ⟨hafter, hlt, hfits, -, -, value, hrecord, -⟩ := hst
    rw [List.mem_singleton.mp hc]
    have hw := (h.log.mirror rid.pageId).tighter.right
    have hne : record ≠ [] := hrecord ▸ makeRecord_ne_nil key value
    obtain ⟨hwf, hread⟩ := redoInsert_spec (P := Page) 0 hw hne hfits
    exact isValid_of_read hwf (Nat.lt_of_lt_of_le hlt h.ids) ((hread rid.slotId).trans (if_pos rfl))
  | erase key rid record t auto =>
    rw [hstage] at hc
    cases record with
    | none =>
      rw [List.mem_singleton.mp hc]
      rfl
    | some record => cases hc
  | erased key rid old record t auto =>
    rw [hstage] at hc hok
    obtain ⟨⟨s, newRid⟩, hstore⟩ : ∃ x, m.shell.storeValue record = x := ⟨_, rfl⟩
    obtain ⟨hrid, -⟩ := Shell.storeValue_of_goesBack h.base hok hstore
    simp only [Shell.stageCalls, hstore, if_pos hrid] at hc
    cases hc
  | _ =>
    rw [hstage] at hc
    cases hc

-- ---------------------------------------------------------------------------
-- One iteration of the undo loop
-- ---------------------------------------------------------------------------

theorem Shell.undoOne_index {t last u last' : Nat} {undo : Option Nat} {db : Database Page}
    (h : s.db.undoOne t last u = (db, last', undo)) :
    db.index = (s.undoCalls u).foldl IndexCall.apply s.db.index := by
  have hdb : (s.db.undoOne t last u).1 = db := congrArg Prod.fst h
  obtain ⟨⟨lm, rec⟩, hread⟩ : ∃ x, s.db.lm.readRecordAtLsn u = x := ⟨_, rfl⟩
  simp only [← hdb, Shell.undoCalls, Database.undoOne, hread]
  cases rec with
  | none => rfl
  | some r =>
    obtain ⟨lsn, txn, prev, body⟩ := r
    rw [Option.map_some]
    cases body with
    | update p slot old new key =>
      show (if old = [] then s.db.index.remove key else if new = [] then s.db.index.insert key ⟨p, slot⟩
        else s.db.index) = _
      by_cases hold : old = []
      · rw [if_pos hold]
        simp only [if_pos hold]
        rfl
      · rw [if_neg hold]
        simp only [if_neg hold]
        by_cases hnew : new = []
        · rw [if_pos hnew, if_pos hnew]
          rfl
        · rw [if_neg hnew, if_neg hnew]
          rfl
    | _ => rfl

theorem Aborting.undoCalls_valid {t last u : Nat} (h : Aborting n st m t last (some u))
    (hroom : m.shell.db.roomAt u = true) : ∀ c ∈ m.shell.undoCalls u, c.valid = true := by
  obtain ⟨w, -, -, hroll, -⟩ := h.goal
  intro c hc
  rw [Shell.undoCalls] at hc
  rw [Database.roomAt] at hroom
  cases hroll u rfl with
  | begin hr hb =>
    rw [LogManager.readRecordAtLsn_eq h.log.lsn hr, Option.map_some, hb] at hc
    cases hc
  | @update _ l p slot r old new key _ _ hr hb =>
    rw [LogManager.readRecordAtLsn_eq h.log.lsn hr, Option.map_some, hb] at hc hroom
    have hpage : Named m.shell.db.lm.log p :=
      ⟨r, List.mem_of_getElem? hr, by rw [hb]; rfl⟩
    obtain ⟨hwf, hread⟩ := undoRecord_spec 0 (h.log.mirror p).tighter.right hroom
    by_cases hold : old = []
    · simp only [if_pos hold] at hc
      rw [List.mem_singleton.mp hc]
      rfl
    · simp only [if_neg hold] at hc
      split at hc
      · rw [List.mem_singleton.mp hc]
        have hback := hread slot
        rw [if_pos rfl, image_of_ne hold] at hback
        exact isValid_of_read hwf (Nat.lt_of_lt_of_le (h.log.named p hpage) h.ids) hback
      · cases hc

-- ---------------------------------------------------------------------------
-- The invariant
-- ---------------------------------------------------------------------------

/-- The shell that has an index. -/
def Session.Phase.machine? : Session.Phase → Option Machine
  | .running m => some m
  | .aborting m _ _ _ => some m
  | _ => none

/-- The tree stands for the index of the shell, on pages that the shell has counted. -/
def TreeInv (x : Indexed) : Prop :=
  ∀ m, x.watched.session.phase.machine? = some m →
    Backs x.tree m.shell.db.index ∧ x.tree.nextPageId ≤ m.shell.nextPageId

/-- The calls of a turn are in order, and what they leave is the index behind the turn. -/
structure Turned (tree : BTreeIndex) (calls : List IndexCall) (grow : Option Nat) (m : Machine) : Prop where
  backs : ∃ index, Backs tree index ∧ m.shell.db.index = calls.foldl IndexCall.apply index
  valid : ∀ c ∈ calls, c.valid = true
  counted : tree.nextPageId ≤ m.shell.nextPageId
  grown : ∀ key rid, .insert key rid ∈ calls → ∃ k, grow = some k ∧ tree.nextPageId + k ≤ m.shell.nextPageId

variable {x y : Indexed} {e : Session.Event} {calls : List IndexCall}

/-- **The calls of a turn** end in a tree for the index. -/
theorem Turned.callAll {k : Option Nat} (h : Turned tree calls k m) (hok : callsOk tree calls = true)
    (hall : callAll tree calls = some tree')
    (hgrow : (k.all fun k => k == tree'.nextPageId - tree.nextPageId) = true) :
    Backs tree' m.shell.db.index ∧ tree'.nextPageId ≤ m.shell.nextPageId := by
  obtain ⟨index, hb, hindex⟩ := h.backs
  obtain ⟨tree'', hall', hb'⟩ := hb.callAll h.valid hok
  obtain rfl := Option.some.inj (hall.symm.trans hall')
  refine ⟨hindex ▸ hb', ?_⟩
  by_cases hins : ∃ key rid, .insert key rid ∈ calls
  · obtain ⟨key, rid, hmem⟩ := hins
    obtain ⟨k, rfl, hle⟩ := h.grown key rid hmem
    rw [Option.all_some, beq_iff_eq] at hgrow
    omega
  · rw [callAll_next (fun key rid hmem => hins ⟨key, rid, hmem⟩) hall]
    exact h.counted

theorem Turned.open (disk : Nat → Page) (n : Nat) : Turned (freshTree n) [] none (.fresh disk n) := by
  refine ⟨⟨_, .create _, rfl⟩, fun c hc => (by cases hc), Nat.le_succ (n + 1), fun key rid hc => ?_⟩
  cases hc

theorem Turned.rebuild {records : List Record} {s : Sys Page} {numPages : Nat} (h : Reopening records n s)
    (hmode : s.mode = .normal) (hids : max numPages (maxPageId records) + 1 + grow ≤ invalidPageId) :
    Turned (freshTree (max numPages (maxPageId records))) (rebuildCalls s.bm.page (dataPages records)) (some grow)
      (.rebuilt s records numPages grow) := by
  obtain ⟨hmir, -⟩ := h.recovered hmode
  refine ⟨⟨_, .create _, ?_⟩, rebuildCalls_valid (fun p => (hmir p).tighter.right) fun p hp => ?_,
    Nat.le_add_right _ _, fun key rid _ => ⟨grow, rfl, Nat.le_refl _⟩⟩
  · rw [rebuildCalls, foldl_rebuildCalls]
    rfl
  · have := (mem_dataPages.mp hp).lt
    omega

theorem Turned.next {x : Shell Page × CommandStage} (h : RunInv n st m) (ht : Backs tree m.shell.db.index)
    (hcounted : tree.nextPageId ≤ m.shell.nextPageId) (hok : Session.keepsStep m (.next grow) = true)
    (hx : m.shell.advance grow m.stage = some x) :
    Turned (tree.withNext (m.shell.stageNext m.stage)) (m.shell.stageCalls m.stage) (some grow) (m.goTo x) := by
  have hfree : ∀ key rid record sequel, m.stage = .stored key rid record sequel →
      m.shell.db.index key.toInt = none := by
    intro key rid record sequel hstage
    rw [Session.keepsStep, hstage, Bool.and_eq_true] at hok
    exact Option.isNone_iff_eq_none.mp hok.2
  have hix := Shell.advance_indexes hx hfree
  have hle : tree.nextPageId ≤ m.shell.stageNext m.stage := by
    refine Nat.le_trans hcounted ?_
    cases m.stage with
    | erased key rid old record t auto => exact (m.shell.storeValue_index record).2
    | _ => exact Nat.le_refl _
  exact ⟨⟨_, ht.withNext hle, hix.index⟩, h.stageCalls_valid hok, hix.counted,
    fun key rid hc => ⟨grow, rfl, hix.grown key rid hc⟩⟩

theorem Turned.abortStep {t last u last' : Nat} {undo : Option Nat} {db : Database Page}
    (h : Aborting n st m t last (some u)) (ht : Backs tree m.shell.db.index)
    (hcounted : tree.nextPageId ≤ m.shell.nextPageId) (hroom : m.shell.db.roomAt u = true)
    (hone : m.shell.db.undoOne t last u = (db, last', undo)) :
    Turned (tree.withNext m.shell.nextPageId) (m.shell.undoCalls u) (some grow) ((m.withDb db).grow grow) :=
  ⟨⟨_, ht.withNext hcounted, Shell.undoOne_index hone⟩, h.undoCalls_valid hroom, Nat.le_add_right _ _,
    fun _ _ _ => ⟨grow, rfl, Nat.le_refl _⟩⟩

-- ---------------------------------------------------------------------------
-- Turns without calls
-- ---------------------------------------------------------------------------

/-- Index and page counter are as they were. -/
def Machine.SameIndex (m m' : Machine) : Prop :=
  m'.shell.db.index = m.shell.db.index ∧ m'.shell.nextPageId = m.shell.nextPageId

theorem Shell.autoBegin_index {t : Nat} {auto : Bool} (h : s.autoBegin = (s', t, auto)) :
    s'.db.index = s.db.index ∧ s'.nextPageId = s.nextPageId := by
  rw [Shell.autoBegin] at h
  split at h
  · obtain ⟨rfl, -⟩ := Prod.mk.inj h
    exact ⟨rfl, rfl⟩
  · obtain ⟨rfl, -⟩ := Prod.mk.inj h
    exact ⟨rfl, rfl⟩

theorem Machine.SameIndex.start {f : Nat → Bool → CommandStage} (h : m.start f = some m') : m.SameIndex m' := by
  obtain ⟨⟨s, t, auto⟩, hbegin⟩ : ∃ x, m.shell.autoBegin = x := ⟨_, rfl⟩
  simp only [Machine.start, hbegin] at h
  split at h
  · obtain rfl := Option.some.inj h
    exact Shell.autoBegin_index hbegin
  · cases h

theorem Machine.SameIndex.startAt {key : Int64} {record : Option Bytes} (h : m.startAt key record = some m') :
    m.SameIndex m' := by
  rw [Machine.startAt] at h
  split at h
  · split at h
    · obtain rfl := Option.some.inj h
      exact ⟨rfl, rfl⟩
    · cases h
  · exact .start h

/-- A command begins, or a data page is written. -/
theorem Machine.SameIndex.step {w : Machine.Event} (hw : ∀ grow, w ≠ .next grow) (h : m.step w = some m') :
    m.SameIndex m' := by
  cases w with
  | put key value =>
    rw [Machine.step] at h
    exact .start h
  | update key value => exact .startAt h
  | del key => exact .startAt h
  | fill k =>
    rw [Machine.step] at h
    exact .start h
  | next grow => exact absurd rfl (hw grow)
  | write p =>
    rw [Machine.step] at h
    split at h
    · obtain rfl := Option.some.inj h
      exact ⟨rfl, rfl⟩
    · cases h
  | writeNode upTo =>
    obtain rfl := Option.some.inj h
    exact ⟨rfl, rfl⟩

theorem Session.running_still {x : Session} {e : Session.Event} {k : Nat} (he : ∀ grow, e ≠ .work (.next grow))
    (hs : Session.step ⟨.running m, k⟩ e = some x) (hm : x.phase.machine? = some m') : m.SameIndex m' := by
  cases e with
  | work w =>
    have hw : ∀ grow, w ≠ .next grow := fun grow hc => he grow (congrArg _ hc)
    have hs' : (m.step w).map (fun m' => Session.wrote ⟨.running m, k⟩ (Session.written w) (.running m')) = some x := by
      cases w with
      | writeNode upTo => cases hs
      | _ => exact hs
    obtain ⟨m₁, hstep, rfl⟩ := Option.map_eq_some_iff.mp hs'
    obtain rfl := Option.some.inj hm
    exact .step hw hstep
  | writeNode q upTo =>
    simp only [Session.step, Session.stepRunning] at hs
    split at hs
    · obtain rfl := Option.some.inj hs
      obtain rfl := Option.some.inj hm
      exact ⟨rfl, rfl⟩
    · cases hs
  | flushLog =>
    obtain rfl := Option.some.inj hs
    obtain rfl := Option.some.inj hm
    exact ⟨rfl, rfl⟩
  | begin =>
    simp only [Session.step, Session.stepRunning, Session.between] at hs
    split at hs
    · obtain rfl := Option.some.inj hs
      obtain rfl := Option.some.inj hm
      show Machine.SameIndex m { m with shell := m.shell.begin }
      rw [Machine.SameIndex, Shell.begin]
      split
      · exact ⟨rfl, rfl⟩
      · exact ⟨rfl, rfl⟩
    · cases hs
  | commit =>
    simp only [Session.step, Session.stepRunning, Session.between] at hs
    split at hs
    · obtain ⟨s, hc, rfl⟩ := Option.map_eq_some_iff.mp hs
      obtain rfl := Option.some.inj hm
      rw [Shell.commit] at hc
      split at hc
      · obtain rfl := Option.some.inj hc
        exact ⟨rfl, rfl⟩
      · obtain ⟨s₁, hcommit, rfl⟩ := Option.map_eq_some_iff.mp hc
        have hauto : m.shell.autoCommit _ true = some s₁ := hcommit
        obtain ⟨hindex, hnext⟩ := Shell.autoCommit_index hauto
        exact ⟨hindex, hnext⟩
    · cases hs
  | abort =>
    simp only [Session.step, Session.stepRunning, Session.abort] at hs
    split at hs
    · split at hs
      · obtain rfl := Option.some.inj hs
        obtain rfl := Option.some.inj hm
        exact ⟨rfl, rfl⟩
      · obtain ⟨prev, -, rfl⟩ := Option.map_eq_some_iff.mp hs
        obtain rfl := Option.some.inj hm
        exact ⟨rfl, rfl⟩
    · cases hs
  | crash =>
    obtain rfl := Option.some.inj hs
    cases hm
  | _ => cases hs

theorem Session.aborting_still {x : Session} {e : Session.Event} {k t last : Nat} {undo : Option Nat}
    (he : ∀ grow, e ≠ .abortStep grow) (hs : Session.step ⟨.aborting m t last undo, k⟩ e = some x)
    (hm : x.phase.machine? = some m') : m.SameIndex m' := by
  cases e with
  | abortStep grow => exact absurd rfl (he grow)
  | abortEnd =>
    simp only [Session.step, Session.stepAborting] at hs
    split at hs
    · obtain rfl := Option.some.inj hs
      obtain rfl := Option.some.inj hm
      exact ⟨rfl, rfl⟩
    · cases hs
  | work w =>
    cases w with
    | write p =>
      simp only [Session.step, Session.stepAborting] at hs
      split at hs
      · obtain rfl := Option.some.inj hs
        obtain rfl := Option.some.inj hm
        exact ⟨rfl, rfl⟩
      · cases hs
    | _ => cases hs
  | writeNode q upTo =>
    simp only [Session.step, Session.stepAborting] at hs
    split at hs
    · obtain rfl := Option.some.inj hs
      obtain rfl := Option.some.inj hm
      exact ⟨rfl, rfl⟩
    · cases hs
  | flushLog =>
    obtain rfl := Option.some.inj hs
    obtain rfl := Option.some.inj hm
    exact ⟨rfl, rfl⟩
  | crash =>
    obtain rfl := Option.some.inj hs
    cases hm
  | _ => cases hs

-- ---------------------------------------------------------------------------
-- Every turn
-- ---------------------------------------------------------------------------

theorem TreeInv.init : TreeInv .init := fun _ hm => by cases hm

/-- A turn of the tree is one of the session. -/
theorem Indexed.watched_step (hs : x.step e = some y) : x.watched.step e = some y.watched := by
  rw [Indexed.step] at hs
  split at hs
  · obtain ⟨w, hw, rfl⟩ := Option.map_eq_some_iff.mp hs
    exact hw
  · obtain ⟨tree', -, hs⟩ := Option.bind_eq_some_iff.mp hs
    split at hs
    · obtain ⟨w, hw, rfl⟩ := Option.map_eq_some_iff.mp hs
      exact hw
    · cases hs

/-- **A turn with calls.** -/
theorem TreeInv.turned {w : Watched} (h : WatchedInv x.watched) (ht : TreeInv x)
    (hok : x.watched.session.keeps e = true) (hturn : x.turn e = some (tree, calls))
    (hw : x.watched.step e = some w) :
    ∃ m, w.session.phase.machine? = some m ∧ Turned tree calls e.grow m := by
  obtain ⟨⟨⟨phase, n⟩, st⟩, tree₀⟩ := x
  obtain ⟨x', hx, rfl⟩ := Option.map_eq_some_iff.mp hw
  cases phase with
  | down file disk =>
    cases e with
    | «open» =>
      cases file with
      | nil =>
        obtain ⟨rfl, rfl⟩ := Prod.mk.inj (Option.some.inj hturn)
        obtain rfl := Option.some.inj hx
        exact ⟨_, rfl, .open disk n⟩
      | cons r file => cases hturn
    | _ => cases hx
  | recovering s records numPages =>
    cases e with
    | rebuild grow =>
      obtain ⟨rfl, rfl⟩ := Prod.mk.inj (Option.some.inj hturn)
      simp only [Session.step, Session.stepRecovering] at hx
      split at hx
      · rename_i hnormal
        obtain rfl := Option.some.inj hx
        have hmode : s.mode = .normal := by
          cases hm : s.mode with
          | normal => rfl
          | _ =>
            rw [hm] at hnormal
            cases hnormal
        simp only [Session.keeps, Bool.and_eq_true, decide_eq_true_iff] at hok
        exact ⟨_, rfl, .rebuild h.1 hmode hok.2⟩
      · cases hx
    | _ => cases hturn
  | running m =>
    obtain ⟨hb, hcounted⟩ := ht m rfl
    cases e with
    | work v =>
      cases v with
      | next grow =>
        obtain ⟨rfl, rfl⟩ := Prod.mk.inj (Option.some.inj hturn)
        obtain ⟨m₁, hm₁, rfl⟩ := Option.map_eq_some_iff.mp hx
        obtain ⟨z, hz, rfl⟩ := Option.map_eq_some_iff.mp hm₁
        exact ⟨_, rfl, .next h hb hcounted hok hz⟩
      | _ => cases hturn
    | _ => cases hturn
  | aborting m t last undo =>
    obtain ⟨hb, hcounted⟩ := ht m rfl
    cases undo with
    | none =>
      cases e with
      | _ => cases hturn
    | some u =>
      cases e with
      | abortStep grow =>
        obtain ⟨rfl, rfl⟩ := Prod.mk.inj (Option.some.inj hturn)
        obtain rfl := Option.some.inj hx
        simp only [Session.keeps, Bool.and_eq_true] at hok
        exact ⟨_, rfl, .abortStep h hb hcounted hok.1 rfl⟩
      | _ => cases hturn

/-- A turn without calls. -/
theorem Indexed.still {w : Watched} (hturn : x.turn e = none) (hw : x.watched.step e = some w)
    (hm : w.session.phase.machine? = some m') :
    ∃ m, x.watched.session.phase.machine? = some m ∧ m.SameIndex m' := by
  obtain ⟨⟨⟨phase, n⟩, st⟩, tree₀⟩ := x
  obtain ⟨x', hx, rfl⟩ := Option.map_eq_some_iff.mp hw
  have hm : x'.phase.machine? = some m' := hm
  cases phase with
  | down file disk =>
    cases e with
    | «open» =>
      cases file with
      | nil => cases hturn
      | cons r file =>
        obtain rfl := Option.some.inj hx
        cases hm
    | _ => cases hx
  | recovering s records numPages =>
    -- `recover()` has no index
    cases e with
    | rebuild grow => cases hturn
    | recoverStep =>
      simp only [Session.step, Session.stepRecovering] at hx
      split at hx
      · cases hx
      · obtain rfl := Option.some.inj hx
        cases hm
    | flushPage p | evict p | crash =>
      obtain rfl := Option.some.inj hx
      cases hm
    | _ => cases hx
  | running m =>
    refine ⟨m, rfl, Session.running_still (fun grow hc => ?_) hx hm⟩
    subst hc
    cases hturn
  | aborting m t last undo =>
    refine ⟨m, rfl, Session.aborting_still (fun grow hc => ?_) hx hm⟩
    subst hc
    cases undo with
    | none => cases hx
    | some u => cases hturn

/-- **Every turn keeps the tree and the index together.** -/
theorem TreeInv.step (h : WatchedInv x.watched) (ht : TreeInv x) (hok : x.keeps e = true) (hs : x.step e = some y) :
    TreeInv y := by
  have hw := Indexed.watched_step hs
  rw [Indexed.keeps, Bool.and_eq_true] at hok
  obtain ⟨hok, hcalls⟩ := hok
  intro m' hm'
  cases hturn : x.turn e with
  | none =>
    obtain ⟨m, hm, hindex, hnext⟩ := Indexed.still hturn hw hm'
    rw [Indexed.step, hturn] at hs
    obtain ⟨w, -, rfl⟩ := Option.map_eq_some_iff.mp hs
    rw [hindex, hnext]
    exact ht m hm
  | some c =>
    obtain ⟨tree, calls⟩ := c
    obtain ⟨m, hm, hturned⟩ := ht.turned h hok hturn hw
    obtain rfl : m = m' := Option.some.inj (hm.symm.trans hm')
    rw [hturn] at hcalls
    rw [Indexed.step, hturn] at hs
    obtain ⟨tree', hall, hs⟩ := Option.bind_eq_some_iff.mp hs
    split at hs
    · rename_i hgrow
      obtain ⟨w, -, rfl⟩ := Option.map_eq_some_iff.mp hs
      exact hturned.callAll hcalls hall hgrow
    · cases hs

-- ---------------------------------------------------------------------------
-- What the shell answers
-- ---------------------------------------------------------------------------

theorem Shell.cmdGet_eq (h : Backs tree s.db.index) (key : Int64) : s.cmdGet tree key = some (s.get key) := by
  rw [Shell.cmdGet, h.search, Option.map_some, Shell.get, Shell.search]
  congr 1
  cases hk : s.db.index key.toInt with
  | none => rfl
  | some rid =>
    rw [Option.getD_some, Shell.answerAt, Option.filter_some]
    cases rid.isValid with
    | false => rfl
    | true => rfl

/-- The rows of RIDs that the index has, in their order. -/
theorem Even.rows {committed kv : Int64 → Option Bytes} (h : Even n committed m kv) {es : List Entry}
    (hes : ∀ e ∈ es, m.shell.db.index e.1 = some e.2) :
    ((es.map Prod.snd).filterMap m.shell.rowAt).map (fun row => (row.key, row.rid)) = es ∧
      ∀ row ∈ (es.map Prod.snd).filterMap m.shell.rowAt,
        ∃ key : Int64, row.key = key.toInt ∧ kv key = some row.value := by
  induction es with
  | nil => exact ⟨rfl, fun row hr => by cases hr⟩
  | cons e es ih =>
    obtain ⟨k, rid⟩ := e
    obtain ⟨hmap, hrows⟩ := ih fun e he => hes e (List.mem_cons_of_mem _ he)
    have hk : m.shell.db.index k = some rid := hes (k, rid) List.mem_cons_self
    obtain ⟨data, hslot, hkey⟩ := (h.index.index k rid).mp hk
    obtain ⟨key, value, rfl, -⟩ := h.store.sound _ _ _ hslot
    rw [recordKey_makeRecord] at hkey
    subst hkey
    obtain ⟨v, hat⟩ := h.at_key hk
    have hread : m.shell.db.read rid.pageId rid.slotId = some (makeRecord key v) := hat.read
    have hrow : m.shell.rowAt rid = some ⟨key.toInt, v, rid⟩ := by
      rw [Shell.rowAt, hread, Option.map_some, recordKey_makeRecord, recordValue_makeRecord]
    rw [List.map_cons, List.filterMap_cons, hrow]
    refine ⟨congrArg _ hmap, fun row hr => ?_⟩
    rcases List.mem_cons.mp hr with rfl | hr
    · exact ⟨key, rfl, hat.kv⟩
    · exact hrows row hr

/-- **`scan` between two commands.** -/
theorem RunInv.scan (h : RunInv n st m) (hstage : m.stage = .ready) (ht : Backs tree m.shell.db.index)
    (beginKey endKey : Int64) :
    ∃ rows, m.shell.cmdScan tree beginKey endKey = some rows ∧ rows.Pairwise (fun a b => a.key < b.key) ∧
      ∀ row, row ∈ rows ↔ ∃ key, beginKey ≤ key ∧ key ≤ endKey ∧ row.key = key.toInt ∧
        st.current key = some row.value ∧ m.shell.search key = some row.rid := by
  obtain ⟨heven, -⟩ := h.ready hstage
  obtain ⟨es, hscan, hsorted, hmem⟩ := ht.rangeScan beginKey.toInt endKey.toInt
  obtain ⟨hmap, hrows⟩ := heven.rows fun e he => ((hmem e.1 e.2).mp he).2.2
  refine ⟨(es.map Prod.snd).filterMap m.shell.rowAt, by rw [Shell.cmdScan, hscan]; rfl, ?_, fun row => ?_⟩
  · rw [← hmap] at hsorted
    exact (List.pairwise_map (f := fun row : Shell.Row => (row.key, row.rid))).mp hsorted
  · have hentry : ∀ row, row ∈ (es.map Prod.snd).filterMap m.shell.rowAt → (row.key, row.rid) ∈ es := by
      intro row hr
      have := List.mem_map_of_mem (f := fun row : Shell.Row => (row.key, row.rid)) hr
      rwa [hmap] at this
    constructor
    · intro hr
      obtain ⟨key, hkey, hvalue⟩ := hrows row hr
      obtain ⟨hlo, hhi, hindex⟩ := (hmem _ _).mp (hentry row hr)
      rw [hkey] at hlo hhi hindex
      refine ⟨key, Int64.le_iff_toInt_le.mpr hlo, Int64.le_iff_toInt_le.mpr hhi, hkey, hvalue, ?_⟩
      rw [Shell.search, hindex]
      exact Option.filter_eq_some_iff.mpr ⟨rfl, heven.isValid hindex⟩
    · rintro ⟨key, hlo, hhi, hkey, hvalue, hsearch⟩
      have hindex : m.shell.db.index key.toInt = some row.rid := (Option.filter_eq_some_iff.mp hsearch).1
      have he : (key.toInt, row.rid) ∈ es :=
        (hmem _ _).mpr ⟨Int64.le_iff_toInt_le.mp hlo, Int64.le_iff_toInt_le.mp hhi, hindex⟩
      rw [← hmap, List.mem_map] at he
      obtain ⟨row', hr', heq⟩ := he
      obtain ⟨hk', hrid'⟩ := Prod.mk.inj heq
      -- the row of that key has the value that the store has
      obtain ⟨key', hkey', hvalue'⟩ := hrows row' hr'
      obtain rfl : key' = key := Int64.toInt_inj.mp (hkey'.symm.trans hk')
      have hv : row'.value = row.value := Option.some.inj (hvalue'.symm.trans hvalue)
      have hsame : row' = row := by
        obtain ⟨k, v, r⟩ := row
        obtain ⟨k', v', r'⟩ := row'
        simp only at hk' hrid' hv hkey
        rw [hk', hrid', hv, hkey]
      exact hsame ▸ hr'

theorem Indexed.inv (h : Steps Indexed.step (fun x e => x.keeps e = true) .init x) :
    WatchedInv x.watched ∧ TreeInv x := by
  refine h.invariant (I := fun x => WatchedInv x.watched ∧ TreeInv x) (fun x e y hi hok hs => ?_) ⟨.init, .init⟩
  have hkeeps := hok
  rw [Indexed.keeps, Bool.and_eq_true] at hkeeps
  exact ⟨hi.1.step hkeeps.1 (Indexed.watched_step hs), hi.2.step hi.1 hok hs⟩

/-- **What `get` and `scan` print.** After any run of the shell on its B+ tree, across crashes and restarts:
between two commands `get` gives what the key-value store has, and `scan` lists exactly the keys of
the store in its range, each once and in increasing order, with the values that `get` gives. -/
theorem Indexed.answers (h : Steps Indexed.step (fun x e => x.keeps e = true) .init x)
    (hphase : x.watched.session.phase = .running m) (hstage : m.stage = .ready) :
    (∀ key, m.shell.cmdGet x.tree key = some (.of (x.watched.store.current key))) ∧
      ∀ beginKey endKey, ∃ rows, m.shell.cmdScan x.tree beginKey endKey = some rows ∧
        rows.Pairwise (fun a b => a.key < b.key) ∧
          ∀ row, row ∈ rows ↔ ∃ key, beginKey ≤ key ∧ key ≤ endKey ∧ row.key = key.toInt ∧
            x.watched.store.current key = some row.value ∧ m.shell.search key = some row.rid := by
  obtain ⟨hw, ht⟩ := Indexed.inv h
  obtain ⟨hb, -⟩ := ht m (by rw [hphase]; rfl)
  rw [WatchedInv, hphase] at hw
  refine ⟨fun key => ?_, fun beginKey endKey => RunInv.scan hw hstage hb beginKey endKey⟩
  rw [Shell.cmdGet_eq hb, RunInv.get hw hstage]

/-- Two records are put, and the shell is started again behind a crash. -/
def putTwiceAndCrash : List Session.Event :=
  [.open, .work (.put 2 [8]), .work (.next 0), .work (.next 0), .work (.next 0), .work (.next 0), .work (.put 1 [7]),
    .work (.next 0), .work (.next 0), .work (.next 0), .work (.next 0), .crash, .open] ++
  List.replicate 11 .recoverStep ++ [.rebuild 0]

/-- The table of `scan` has both. -/
theorem Indexed.scan_after_putTwiceAndCrash : ∃ (x : Indexed) (m : Machine) (rows : List Shell.Row),
    Steps Indexed.step (fun x e => x.keeps e = true) .init x ∧ m.shell.cmdScan x.tree 0 10 = some rows ∧
      ⟨1, [7], ⟨1, 1⟩⟩ ∈ rows ∧ ⟨2, [8], ⟨1, 0⟩⟩ ∈ rows := by
  have hrun : (run Indexed.step (fun x e => x.keeps e) .init putTwiceAndCrash).2 = true := by
    decide +kernel
  have hready : (run Indexed.step (fun x e => x.keeps e) .init putTwiceAndCrash).1.watched.session.phase.ready =
      true := by
    decide +kernel
  have hvalue : ((run Indexed.step (fun x e => x.keeps e) .init putTwiceAndCrash).1.watched.store.current 1 =
      some [7]) ∧ (run Indexed.step (fun x e => x.keeps e) .init putTwiceAndCrash).1.watched.store.current 2 =
      some [8] := by
    decide +kernel
  have hrid : ((run Indexed.step (fun x e => x.keeps e) .init putTwiceAndCrash).1.watched.session.phase.machine?.map
      fun m => (m.shell.search 1, m.shell.search 2)) = some (some ⟨1, 1⟩, some ⟨1, 0⟩) := by
    decide +kernel
  have hsteps : Steps Indexed.step (fun x e => x.keeps e = true) .init _ := .of_run (fun _ _ hc => hc) hrun
  generalize (run Indexed.step (fun x e => x.keeps e) .init putTwiceAndCrash).1 = x at hready hvalue hrid hsteps
  cases hphase : x.watched.session.phase with
  | running m =>
    rw [hphase, Session.Phase.ready, beq_iff_eq] at hready
    rw [hphase, Session.Phase.machine?, Option.map_some, Option.some.injEq, Prod.mk.injEq] at hrid
    obtain ⟨rows, hscan, -, hmem⟩ := (Indexed.answers hsteps hphase hready).2 0 10
    exact ⟨x, m, rows, hsteps, hscan,
      (hmem _).mpr ⟨1, by decide, by decide, by decide, hvalue.1, hrid.1⟩,
      (hmem _).mpr ⟨2, by decide, by decide, by decide, hvalue.2, hrid.2⟩⟩
  | _ =>
    rw [hphase] at hready
    cases hready

end PersistX
