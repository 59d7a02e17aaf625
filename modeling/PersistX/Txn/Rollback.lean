import PersistX.Txn.Manager
import PersistX.Page.DataPage
import PersistX.Lib.Transition

/-!
# PersistX — abort puts back what begin found

`Visible` is what a client can see of a database: the contents of the slots and
the index. `Rollback log l v w` says that walking the undo chain from the record
at `l`, with `v` to start from, ends at BEGIN with `w`. `Rollback.undoLoop` is
the code's loop: it takes the walk, if what it forces back has room. Each
operation of a transaction puts one record in front of the chain, whose undo
takes back exactly this operation (`Rollback.run`), whatever slots and keys the
transaction has used before.

Main result: `abort_restores`. An image that is empty stands for "no record" in
an UPDATE record, so a delete or an update of an empty record is not undone
(`empty_record_not_restored`).
-/

namespace PersistX

open PageOps LawfulPageOps Transition

variable {P : Type}

-- ---------------------------------------------------------------------------
-- Log managers whose LSNs are positions
-- ---------------------------------------------------------------------------

/-- The counters agree with the records, and a record's LSN is its position:
true of a new log, and kept by every operation of the log manager. -/
structure LogManager.Sound (lm : LogManager) : Prop where
  ok : lm.Ok
  lsn : ∀ (i : Nat) (r : Record), lm.log[i]? = some r → r.lsn = i

theorem LogManager.Sound.append {lm : LogManager} (h : lm.Sound) (t : Nat) (pr : Option Nat)
    (b : RecordBody) : (lm.append t pr b).1.Sound where
  ok := h.ok.append t pr b
  lsn i r hr := by
    rw [append_log] at hr
    rcases Nat.lt_or_ge i lm.log.length with hi | hi
    · rw [List.getElem?_append_left hi] at hr
      exact h.lsn i r hr
    · rw [List.getElem?_append_right hi, List.getElem?_singleton] at hr
      split at hr
      · rw [← Option.some.inj hr]
        show lm.nextLsn = i
        rw [h.ok.next]
        omega
      · cases hr

theorem LogManager.Sound.flushAll {lm : LogManager} (h : lm.Sound) : lm.flushAll.Sound where
  ok := h.ok.flushAll
  lsn i r hr := h.lsn i r (by rwa [flushAll_log] at hr)

theorem LogManager.Sound.flush {lm : LogManager} (h : lm.Sound) (l : Nat) : (lm.flush l).Sound where
  ok := h.ok.flush l
  lsn i r hr := h.lsn i r (by rwa [flush_log] at hr)

theorem LogManager.Sound.new : (ofFile []).Sound :=
  ⟨⟨rfl, fun _ h => by cases h⟩, fun i r h => by cases h⟩

/-- The record that `append` has just added. -/
theorem LogManager.Sound.getElem?_append {lm : LogManager} (h : lm.Sound) (t : Nat)
    (pr : Option Nat) (b : RecordBody) :
    (lm.append t pr b).1.log[lm.nextLsn]? = some ⟨lm.nextLsn, t, pr, b⟩ := by
  rw [append_log, List.getElem?_append_right (Nat.le_of_eq h.ok.next.symm), h.ok.next,
    Nat.sub_self]
  rfl

-- ---------------------------------------------------------------------------
-- What a client sees
-- ---------------------------------------------------------------------------

/-- The slots and the index. -/
structure Visible where
  slots : Contents
  index : IndexMap

/-- Take back one UPDATE. -/
def Visible.undo (v : Visible) (p slot : Nat) (old new : Bytes) (key : Int) : Visible where
  slots := v.slots.set p slot (image old)
  index :=
    if old = [] then v.index.remove key
    else if new = [] then v.index.insert key ⟨p, slot⟩
    else v.index

/-- What a client sees of a database. -/
def Database.visible [PageOps P] (db : Database P) : Visible := ⟨db.read, db.index⟩

/-- Undoing from the record at `l` leads from `v` to `w`. -/
inductive Rollback (log : List Record) : Nat → Visible → Visible → Prop where
  | begin {l : Nat} {r : Record} {v : Visible} : log[l]? = some r → r.body = .begin →
      Rollback log l v v
  | update {l l' p slot : Nat} {r : Record} {old new : Bytes} {key : Int} {v w : Visible} :
      log[l]? = some r → r.body = .update p slot old new key → r.prevLsn = some l' → l' < l →
      Rollback log l' (v.undo p slot old new key) w → Rollback log l v w

theorem getElem?_of_isPrefix {α : Type} {a b : List α} (h : a <+: b) {i : Nat} {x : α}
    (hx : a[i]? = some x) : b[i]? = some x := by
  obtain ⟨c, rfl⟩ := h
  rw [List.getElem?_append_left (List.getElem?_eq_some_iff.mp hx).1]
  exact hx

theorem Rollback.mono {log log' : List Record} (hpre : log <+: log') {l : Nat} {v w : Visible}
    (h : Rollback log l v w) : Rollback log' l v w := by
  induction h with
  | begin hr hb => exact .begin (getElem?_of_isPrefix hpre hr) hb
  | update hr hb hp hlt _ ih => exact .update (getElem?_of_isPrefix hpre hr) hb hp hlt ih

theorem Rollback.lt_length {log : List Record} {l : Nat} {v w : Visible} (h : Rollback log l v w) :
    l < log.length := by
  cases h with
  | begin hr _ => exact (List.getElem?_eq_some_iff.mp hr).1
  | update hr _ => exact (List.getElem?_eq_some_iff.mp hr).1

-- ---------------------------------------------------------------------------
-- The loop
-- ---------------------------------------------------------------------------

section Loop

variable [DataPageOps P]

/-- Undoing an UPDATE that has room puts its before-image back and touches no other slot. -/
theorem undoRecord_spec {x : P} {s : Nat} {old new : Bytes} (lsn : Nat) (hw : Wf x)
    (hf : undoFits x s old new = true) :
    Wf (undoRecord x s old new lsn) ∧ ∀ s', readRecord (undoRecord x s old new lsn) s' =
      if s' = s then image old else readRecord x s' := by
  have hstamp : ∀ {y : P}, (Wf y ∧ ∀ s', readRecord y s' =
      if s' = s then image old else readRecord x s') →
      Wf (setPageLsn y lsn) ∧ ∀ s', readRecord (setPageLsn y lsn) s' =
        if s' = s then image old else readRecord x s' :=
    fun h => ⟨wf_setPageLsn lsn h.1, fun s' => by rw [read_setPageLsn lsn s' h.1, h.2]⟩
  simp only [undoFits] at hf
  refine hstamp ?_
  split
  · rename_i ho
    rw [ho]
    exact deleteRecord_spec s 0 hw
  · rename_i ho
    rw [if_neg ho] at hf
    rw [image_of_ne ho]
    split
    · rename_i hn
      rw [if_pos hn] at hf
      exact redoInsert_spec 0 hw ho hf
    · rename_i hn
      rw [if_neg hn] at hf
      exact overwriteRecord_spec 0 hw ho hf

/-- A page changes in one slot. -/
theorem Database.read_setPage {db : Database P} {p slot : Nat} {x : P} {v : Option Bytes}
    (hx : ∀ s, readRecord x s = if s = slot then v else readRecord (db.heap p) s) :
    (db.setPage p x).read = Contents.set db.read p slot v := by
  funext q s
  simp only [Database.read, Database.setPage, Contents.set]
  by_cases hq : q = p
  · subst hq
    rw [if_pos rfl, hx]
    simp
  · rw [if_neg hq, if_neg (fun h => hq h.1)]

theorem Database.wf_setPage {db : Database P} {p : Nat} {x : P} (h : ∀ q, Wf (db.heap q))
    (hx : Wf x) (q : Nat) : Wf ((db.setPage p x).heap q) := by
  simp only [Database.setPage]
  split
  · exact hx
  · exact h q

/-- What rolling back has done. -/
structure RolledBack (db db' : Database P) (w : Visible) : Prop where
  visible : db'.visible = w
  wf : ∀ p, Wf (db'.heap p)
  inited : ∀ p, inited (db.heap p) = true → inited (db'.heap p) = true
  sound : db'.lm.Sound
  grown : db.lm.log <+: db'.lm.log
  att : db'.att = db.att
  nextTxnId : db'.nextTxnId = db.nextTxnId

/-- **The loop of `abort` takes the walk** along the undo chain; as many
iterations as there are records up to its start are enough. -/
theorem Rollback.undoLoop {log : List Record} {l : Nat} {v w : Visible} (h : Rollback log l v w)
    {t : Nat} : ∀ {db : Database P} {last fuel : Nat}, db.lm.Sound → log <+: db.lm.log →
      db.visible = v → (∀ p, Wf (db.heap p)) → l < fuel →
      Database.undoRoom fuel db t last (some l) = true →
      ∃ db' last', Database.undoLoop fuel db t last (some l) = some (db', last') ∧
        RolledBack db db' w := by
  induction h with
  | @begin l r v hr hb =>
    intro db last fuel hsound hpre hv hwf hfuel _
    obtain ⟨fuel, rfl⟩ : ∃ n, fuel = n + 1 := ⟨fuel - 1, by omega⟩
    have hget := LogManager.readRecordAtLsn_eq hsound.lsn (getElem?_of_isPrefix hpre hr)
    refine ⟨{ db with lm := db.lm.flushAll }, last, ?_, hv, hwf, fun _ h => h, hsound.flushAll, ?_,
      rfl, rfl⟩
    · simp only [Database.undoLoop, Database.undoOne, hget, hb]
      rfl
    · show db.lm.log <+: db.lm.flushAll.log
      rw [LogManager.flushAll_log]
  | @update l l' p slot r old new key v w hr hb hp hlt _ ih =>
    intro db last fuel hsound hpre hv hwf hfuel hroom
    obtain ⟨fuel, rfl⟩ : ∃ n, fuel = n + 1 := ⟨fuel - 1, by omega⟩
    have hget := LogManager.readRecordAtLsn_eq hsound.lsn (getElem?_of_isPrefix hpre hr)
    simp only [Database.undoRoom, Database.roomAt, Database.undoOne, hget, hb, hp,
      Option.map_some, Bool.and_eq_true] at hroom
    obtain ⟨hfits, hroom⟩ := hroom
    generalize hnext : ({ db with lm := (db.lm.readRecordAtLsn l).1 } : Database P).undoUpdate t last
      (some l') p slot old new key = next at hroom
    have hone : db.undoOne t last l = (next.1, next.2, some l') := by
      rw [← hnext]
      simp only [Database.undoOne, hget, hb, hp]
    have hlm : next.1.lm = (db.lm.flushAll.append t (some last) (.clr p slot old (some l'))).1 := by
      rw [← hnext]
      rfl
    have hgrown : db.lm.log <+: next.1.lm.log := by
      rw [hlm, LogManager.append_log, LogManager.flushAll_log]
      exact List.prefix_append _ _
    obtain ⟨hwfx, hreadx⟩ := undoRecord_spec db.lm.flushAll.nextLsn (hwf p) hfits
    have hvis : next.1.visible = v.undo p slot old new key := by
      rw [← hnext, ← hv]
      simp only [Database.visible, Database.undoUpdate, Visible.undo, LogManager.append_lsn]
      congr 1
      exact Database.read_setPage hreadx
    have hwf' : ∀ q, Wf (next.1.heap q) := by
      rw [← hnext]
      exact Database.wf_setPage hwf hwfx
    have hinit : ∀ q, inited (db.heap q) = true → inited (next.1.heap q) = true := by
      intro q hq
      rw [← hnext]
      simp only [Database.undoUpdate, Database.setPage]
      split
      · rename_i heq
        exact inited_undoRecord _ (hwf p) (heq ▸ hq) hfits
      · exact hq
    have hsound' : next.1.lm.Sound := by
      rw [hlm]
      exact hsound.flushAll.append _ _ _
    have hfuel' : l' < fuel := by omega
    obtain ⟨db', last', hloop, hdone⟩ := ih hsound' (hpre.trans hgrown) hvis hwf' hfuel' hroom
    refine ⟨db', last', ?_, hdone.visible, hdone.wf, fun q hq => hdone.inited q (hinit q hq),
      hdone.sound, hgrown.trans hdone.grown, ?_, ?_⟩
    · rw [Database.undoLoop, hone]
      exact hloop
    · rw [hdone.att, ← hnext]
      rfl
    · rw [hdone.nextTxnId, ← hnext]
      rfl

/-- **`abort` goes back to where the transaction began.** -/
theorem Rollback.abort {db : Database P} {t prev fuel : Nat} {w : Visible}
    (h : Rollback db.lm.log prev db.visible w) (hl : db.att.lookup t = some prev)
    (hsound : db.lm.Sound) (hwf : ∀ p, Wf (db.heap p)) (hfuel : db.lm.log.length ≤ fuel)
    (hroom : db.abortRoom fuel t = true) :
    ∃ d, db.abort fuel t = some d ∧ d.visible = w ∧ (∀ p, Wf (d.heap p)) ∧
      (∀ p, inited (db.heap p) = true → inited (d.heap p) = true) ∧ d.lm.Sound ∧
      d.att = db.att.erase t ∧ d.nextTxnId = db.nextTxnId := by
  have hpre : db.lm.log <+: (db.lm.append t (some prev) .abort).1.log := by
    rw [LogManager.append_log]
    exact List.prefix_append _ _
  simp only [Database.abortRoom, hl, Option.all_some] at hroom
  have hsound' : ({ db with lm := (db.lm.append t (some prev) .abort).1 } : Database P).lm.Sound :=
    hsound.append _ _ _
  obtain ⟨d, last, hloop, hdone⟩ := (h.mono hpre).undoLoop hsound' List.prefix_rfl rfl hwf
    (Nat.lt_of_lt_of_le h.lt_length hfuel) hroom
  refine ⟨{ d with lm := (d.lm.append t (some last) .txnEnd).1, att := d.att.erase t }, ?_,
    hdone.visible, hdone.wf, hdone.inited, hdone.sound.append _ _ _, ?_, hdone.nextTxnId⟩
  · simp only [Database.abort, hl, Option.bind_some]
    rw [hloop]
    rfl
  · show d.att.erase t = db.att.erase t
    rw [hdone.att]

-- ---------------------------------------------------------------------------
-- The operations
-- ---------------------------------------------------------------------------

/-- Transaction `t` is open and rolling it back leads to `w`. -/
structure InTxn (db : Database P) (t : Nat) (w : Visible) : Prop where
  chain : ∃ prev, db.att.lookup t = some prev ∧ Rollback db.lm.log prev db.visible w
  sound : db.lm.Sound
  wf : ∀ p, Wf (db.heap p)

theorem InTxn.begin {db : Database P} (hsound : db.lm.Sound) (hwf : ∀ p, Wf (db.heap p)) :
    InTxn db.begin db.nextTxnId db.visible where
  chain := ⟨db.lm.nextLsn, AList.lookup_insert _, .begin (hsound.getElem?_append _ _ _) rfl⟩
  sound := hsound.append _ _ _
  wf := hwf

/-- A change of one slot and of the index is logged: rolling back undoes it first. -/
theorem InTxn.logUpdate {db db₁ db' : Database P} {t p slot : Nat} {old new : Bytes} {key : Int}
    {w : Visible} (h : InTxn db t w)
    (hs : (db₁.logUpdate t p slot old new key).map (fun x => x.1.stampPage p x.2) = some db')
    (hlm : db₁.lm = db.lm) (hatt : db₁.att = db.att) (hwf : ∀ p, Wf (db₁.heap p))
    (hundo : db₁.visible.undo p slot old new key = db.visible) :
    InTxn db' t w ∧ db'.visible = db₁.visible := by
  obtain ⟨prev, hl, hroll⟩ := h.chain
  rw [Database.logUpdate, hatt, hl, hlm] at hs
  have hs' : ({ db₁ with
      lm := (db.lm.append t (some prev) (.update p slot old new key)).1
      att := db.att.insert t db.lm.nextLsn } : Database P).stampPage p db.lm.nextLsn = db' :=
    Option.some.inj hs
  subst hs'
  have hsound := h.sound.append t (some prev) (.update p slot old new key)
  have hvis : (({ db₁ with
      lm := (db.lm.append t (some prev) (.update p slot old new key)).1
      att := db.att.insert t db.lm.nextLsn } : Database P).stampPage p db.lm.nextLsn).visible =
      db₁.visible := by
    simp only [Database.visible, Database.stampPage]
    congr 1
    funext q s
    simp only [Database.read, Database.setPage]
    split
    · rename_i hq
      subst hq
      exact read_setPageLsn _ _ (hwf q)
    · rfl
  refine ⟨⟨⟨db.lm.nextLsn, AList.lookup_insert _, ?_⟩, hsound, ?_⟩, hvis⟩
  · rw [hvis]
    refine .update (h.sound.getElem?_append _ _ _) rfl rfl ?_ ?_
    · rw [h.sound.ok.next]
      exact hroll.lt_length
    · rw [hundo]
      refine hroll.mono ?_
      show _ <+: (db.lm.append t (some prev) (.update p slot old new key)).1.log
      rw [LogManager.append_log]
      exact List.prefix_append _ _
  · exact Database.wf_setPage hwf (wf_setPageLsn _ (hwf p))

theorem Contents.set_set (c : Contents) (p s : Nat) (a b : Option Bytes) :
    (c.set p s a).set p s b = c.set p s b := by
  funext q u
  simp only [Contents.set]
  split <;> rfl

theorem Contents.set_eq {c : Contents} {p s : Nat} {v : Option Bytes} (h : c p s = v) :
    c.set p s v = c := by
  funext q u
  simp only [Contents.set]
  split
  · rename_i hq
    rw [hq.1, hq.2, h]
  · rfl

end Loop

/-- On slot maps everything has room. -/
theorem SlotPage.overwriteFits_eq_true (x : SlotPage) (s : Nat) (data : Bytes) :
    overwriteFits x s data = true := by
  rw [overwriteFits]
  split <;> rfl

theorem SlotPage.undoFits_eq_true (x : SlotPage) (s : Nat) (old new : Bytes) :
    undoFits x s old new = true := by
  rw [undoFits]
  split
  · rfl
  · split
    · rfl
    · exact overwriteFits_eq_true x s old

theorem SlotPage.undoRoom_eq_true (t fuel : Nat) : ∀ (db : Database SlotPage) (last : Nat)
    (u : Option Nat), Database.undoRoom fuel db t last u = true := by
  induction fuel with
  | zero => intro db last u; cases u <;> rfl
  | succ fuel ih =>
    intro db last u
    cases u with
    | none => rfl
    | some u =>
      rw [Database.undoRoom, Bool.and_eq_true]
      refine ⟨?_, ih _ _ _⟩
      rw [Database.roomAt]
      split
      · exact undoFits_eq_true _ _ _ _
      · rfl

theorem SlotPage.abortRoom_eq_true (db : Database SlotPage) (fuel t : Nat) :
    db.abortRoom fuel t = true := by
  rw [Database.abortRoom]
  cases db.att.lookup t with
  | none => rfl
  | some prev => exact undoRoom_eq_true _ _ _ _ _

/-- The record that the operation deletes or overwrites is not empty. -/
def TargetNonempty [PageOps P] (db : Database P) : TxnOp → Prop
  | .insert .. => True
  | .delete key => ∀ rid, db.index key = some rid → db.read rid.pageId rid.slotId ≠ some []
  | .update rid _ _ => db.read rid.pageId rid.slotId ≠ some []

/-- **Each operation can be taken back.** -/
theorem InTxn.run {db db' : Database SlotPage} {t : Nat} {w : Visible} {op : TxnOp}
    (h : InTxn db t w) (hne : TargetNonempty db op) (hs : op.run t db = some db') :
    InTxn db' t w := by
  have hwf : ∀ (db : Database SlotPage) p, Wf (db.heap p) := fun _ _ => trivial
  cases op with
  | insert p data key =>
    simp only [TxnOp.run, Option.ite_none_left_eq_some, Bool.not_eq_true, Option.isSome_eq_false_iff,
      Option.isNone_iff_eq_none, Option.bind_eq_some_iff] at hs
    obtain ⟨hkey, ⟨x, slot⟩, hins, hs⟩ := hs
    obtain ⟨hfree, rfl⟩ := SlotPage.insertRecord_eq hins
    refine (h.logUpdate hs rfl rfl (hwf _) ?_).1
    have hread : (db.setPage p ((db.heap p).redoInsert slot data 0)).read =
        Contents.set db.read p slot (some data) :=
      Database.read_setPage (SlotPage.readRecord_redoInsert _ _ _ _)
    simp only [Visible.undo, Database.visible, image_nil, if_true]
    congr 1
    · show Contents.set (db.setPage p ((db.heap p).redoInsert slot data 0)).read p slot none = _
      rw [hread, Contents.set_set, Contents.set_eq hfree]
    · exact IndexMap.remove_insert hkey _
  | delete key =>
    simp only [TxnOp.run, Option.bind_eq_some_iff] at hs
    obtain ⟨rid, hrid, old, hold, hs⟩ := hs
    have holdne : old ≠ [] := by
      rintro rfl
      exact hne rid hrid hold
    refine (h.logUpdate hs rfl rfl (hwf _) ?_).1
    have hread : (db.setPage rid.pageId ((db.heap rid.pageId).deleteRecord rid.slotId 0).1).read =
        Contents.set db.read rid.pageId rid.slotId none :=
      Database.read_setPage (SlotPage.readRecord_deleteRecord _ _ _)
    simp only [Visible.undo, Database.visible, if_neg holdne, if_true]
    congr 1
    · show Contents.set (db.setPage rid.pageId ((db.heap rid.pageId).deleteRecord rid.slotId 0).1).read
        rid.pageId rid.slotId (image old) = _
      rw [hread, Contents.set_set, image_of_ne holdne, Contents.set_eq hold]
    · exact IndexMap.insert_remove hrid
  | update rid data key =>
    simp only [TxnOp.run, Option.ite_none_left_eq_some, Option.bind_eq_some_iff] at hs
    obtain ⟨hdata, old, hold, hs⟩ := hs
    have holdne : old ≠ [] := by
      rintro rfl
      exact hne hold
    refine (h.logUpdate hs rfl rfl (hwf _) ?_).1
    have hspec := (overwriteRecord_spec (x := db.heap rid.pageId) (s := rid.slotId) 0 trivial hdata
      (SlotPage.overwriteFits_eq_true _ _ _)).2
    have hread : (db.setPage rid.pageId (overwriteRecord (db.heap rid.pageId) rid.slotId data 0)).read
        = Contents.set db.read rid.pageId rid.slotId (some data) := Database.read_setPage hspec
    simp only [Visible.undo, Database.visible, if_neg holdne, if_neg hdata]
    congr 1
    rw [hread, Contents.set_set, image_of_ne holdne, Contents.set_eq hold]

/-- **Abort is an exact rollback.** From any pages and any index, after any
sequence of operations of one transaction on records that are not empty,
`abort` comes to an end, every slot and the index are as they were before
`begin`, and the transaction is out of the ATT. -/
theorem abort_restores {db db' : Database SlotPage} (hlog : db.lm.Sound)
    (hrun : Steps (TxnOp.run db.nextTxnId) TargetNonempty db.begin db') {fuel : Nat}
    (hfuel : db'.lm.log.length ≤ fuel) :
    ∃ d, db'.abort fuel db.nextTxnId = some d ∧ (∀ p slot, d.read p slot = db.read p slot) ∧
      d.index = db.index ∧ db.nextTxnId ∉ d.att := by
  have hbegin : InTxn db.begin db.nextTxnId db.visible := .begin hlog fun _ => trivial
  have h : InTxn db' db.nextTxnId db.visible :=
    hrun.invariant (I := fun db' => InTxn db' db.nextTxnId db.visible)
      (fun _ _ _ h hok hs => h.run hok hs) hbegin
  obtain ⟨prev, hl, hroll⟩ := h.chain
  obtain ⟨d, hd, hvis, -, -, -, hatt, -⟩ := hroll.abort hl h.sound h.wf hfuel
    (SlotPage.abortRoom_eq_true _ _ _)
  refine ⟨d, hd, fun p slot => ?_, congrArg Visible.index hvis, ?_⟩
  · exact congrFun (congrFun (congrArg Visible.slots hvis) p) slot
  · rw [hatt, ← AList.lookup_eq_none]
    exact AList.lookup_erase _ _

/-- One record, with key 5, on page 0. -/
def oneRecord (data : Bytes) : Database SlotPage where
  lm := .ofFile []
  heap p := if p = 0 then ⟨[some data], 0⟩ else zero
  index k := if k = 5 then some ⟨0, 0⟩ else none
  att := ∅
  nextTxnId := 0

/-- The slot and the key are used again by the transaction that deletes the record. -/
theorem delete_insert_update_abort :
    ∃ db' d, (((TxnOp.delete 5).run 0 (oneRecord [7]).begin).bind
        ((TxnOp.insert 0 [8, 9] 5).run 0)).bind ((TxnOp.update ⟨0, 0⟩ [6] 5).run 0) = some db' ∧
      db'.read 0 0 = some [6] ∧ db'.abort 6 0 = some d ∧
      (∀ p slot, d.read p slot = (oneRecord [7]).read p slot) ∧ d.index = (oneRecord [7]).index := by
  have hlog : (oneRecord [7]).lm.Sound := .new
  have h1 : Steps (TxnOp.run 0) TargetNonempty (oneRecord [7]).begin _ :=
    Steps.refl.next (.delete 5) (by rintro _ ⟨⟩; show Database.read _ _ _ ≠ _; decide) rfl
  have h2 := h1.next (.insert 0 [8, 9] 5) trivial rfl
  have h3 := h2.next (.update ⟨0, 0⟩ [6] 5) (by show Database.read _ _ _ ≠ _; decide) rfl
  obtain ⟨d, hd, hread, hindex, -⟩ := abort_restores hlog h3 (show _ ≤ 6 by decide)
  exact ⟨_, d, rfl, by decide, hd, hread, hindex⟩

/-- An empty record is deleted and the transaction aborts: the UPDATE record
looks like that of an insert, so the slot stays deleted and the key is lost. -/
theorem empty_record_not_restored :
    ∃ db' d, (TxnOp.delete 5).run 0 (oneRecord []).begin = some db' ∧ db'.abort 3 0 = some d ∧
      (oneRecord []).read 0 0 = some [] ∧ d.read 0 0 = none ∧
      (oneRecord []).index 5 = some ⟨0, 0⟩ ∧ d.index 5 = none :=
  ⟨_, _, rfl, rfl, by decide, by decide, by decide, by decide⟩

end PersistX
