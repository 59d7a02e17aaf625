import PersistX.Shell.Represents
import PersistX.Txn.Rollback

/-!
# PersistX — log, transactions and page images while commands run

`WalInv` is what a crash may rely on at any moment: the log is legitimate, redo of its
file brings every page image up to date, and every page is what the log describes.
`TxnTable` says that the ATT is that of the log. One lemma for each thing that the
commands do to them: a record that is about no page, an UPDATE with the change of its
page and the stamp, COMMIT, a CLR, a fresh page, the write of a page, a flush.
-/

namespace PersistX

open PageOps LawfulPageOps

/-- Log, page file and pages. `heap` is what the pages are as far as the log goes, `n` is the length
of the page file and `next` the page counter. -/
structure WalInv (n next : Nat) (committed : Int64 → Option Bytes) (lm : LogManager)
    (disk heap : Nat → Page) : Prop where
  hist : History PlainRule lm.log
  ok : lm.Ok
  files : ∀ p, Intact lm.file p (disk p)
  mirror : ∀ p, Mirror lm.log p (disk p) (heap p)
  beyond : ∀ p, n ≤ p → disk p = Page.zero
  grown : n ≤ next
  named : ∀ p, Named lm.log p → p < next
  buffer : CommitFree lm.buffer
  committed : Represents (committedContents lm.log) committed

/-- The ATT is that of the log. -/
structure TxnTable (log : List Record) (att : Table) (nextTxnId : Nat) : Prop where
  exact : AttExact att log
  fresh : ∀ t, nextTxnId ≤ t → active log t = none

/-- Transaction `t` is open and goes forward, and it is the only one. -/
structure OnlyOpen (log : List Record) (t : Nat) : Prop where
  opened : ∃ v, active log t = some v ∧ v.rolling = false
  only : ∀ t' v, active log t' = some v → t' = t

variable {n next p t slot nextTxnId : Nat} {committed kv : Int64 → Option Bytes} {lm : LogManager}
  {disk heap : Nat → Page} {att : Table} {log : List Record} {old new : Bytes} {key : Int} {x : Page}
  {v : TxnView}

-- ---------------------------------------------------------------------------
-- Without a record
-- ---------------------------------------------------------------------------

theorem WalInv.lsn (h : WalInv n next committed lm disk heap) :
    ∀ (i : Nat) (r : Record), lm.log[i]? = some r → r.lsn = i := h.hist.logLsn

theorem WalInv.flush (h : WalInv n next committed lm disk heap) (l : Nat) :
    WalInv n next committed (lm.flush l) disk heap where
  hist := by
    rw [LogManager.flush_log]
    exact h.hist
  ok := h.ok.flush l
  files p := (h.files p).flush (h.mirror p) l
  mirror := by
    rw [LogManager.flush_log]
    exact h.mirror
  beyond := h.beyond
  grown := h.grown
  named := by
    rw [LogManager.flush_log]
    exact h.named
  buffer := by
    rcases lm.flush_eq l with hl | hl
    · rw [hl]
      exact h.buffer
    · rw [hl, LogManager.flushAll_buffer]
      exact fun r hr => absurd hr List.not_mem_nil
  committed := by
    rw [LogManager.flush_log]
    exact h.committed

theorem WalInv.flushAll (h : WalInv n next committed lm disk heap) :
    WalInv n next committed lm.flushAll disk heap where
  hist := by
    rw [LogManager.flushAll_log]
    exact h.hist
  ok := h.ok.flushAll
  files p := by
    rw [LogManager.flushAll_file]
    exact (h.mirror p).intact
  mirror := by
    rw [LogManager.flushAll_log]
    exact h.mirror
  beyond := h.beyond
  grown := h.grown
  named := by
    rw [LogManager.flushAll_log]
    exact h.named
  buffer := by
    rw [LogManager.flushAll_buffer]
    exact fun r hr => absurd hr List.not_mem_nil
  committed := by
    rw [LogManager.flushAll_log]
    exact h.committed

/-- **A page is written**, after `enforce_wal`. -/
theorem WalInv.write (h : WalInv n next committed lm disk heap) (hp : p < next) :
    WalInv (max n (p + 1)) next committed (lm.flush (heap p).pageLsn)
      (fun q => if q = p then heap p else disk q) heap where
  hist := (h.flush _).hist
  ok := (h.flush _).ok
  files q := by
    split
    · rename_i hq
      rw [hq]
      exact (h.mirror p).intact_written h.ok h.lsn
    · exact (h.flush _).files q
  mirror q := by
    split
    · rename_i hq
      rw [hq]
      exact ((h.flush _).mirror p).written
    · exact (h.flush _).mirror q
  beyond q hq := by
    rw [if_neg (by omega)]
    exact h.beyond q (by omega)
  grown := Nat.max_le.mpr ⟨h.grown, hp⟩
  named := (h.flush _).named
  buffer := (h.flush _).buffer
  committed := (h.flush _).committed

/-- Pages are taken. -/
theorem WalInv.grow (h : WalInv n next committed lm disk heap) {next' : Nat} (hle : next ≤ next') :
    WalInv n next' committed lm disk heap :=
  { h with
    grown := Nat.le_trans h.grown hle
    named := fun p hp => Nat.lt_of_lt_of_le (h.named p hp) hle }

/-- The page file is longer, by a node of the index. -/
theorem WalInv.lengthen (h : WalInv n next committed lm disk heap) (hp : p < next) :
    WalInv (max n (p + 1)) next committed lm disk heap :=
  { h with
    beyond := fun q hq => h.beyond q (by omega)
    grown := Nat.max_le.mpr ⟨h.grown, hp⟩ }

/-- `new_page` and `init`. -/
theorem WalInv.newPage (h : WalInv n next committed lm disk heap) :
    WalInv n (next + 1) committed lm disk fun q => if q = next then Page.init next else heap q :=
  { h.grow (Nat.le_succ next) with
    mirror := fun q => by
      split
      · rename_i hq
        rw [hq, h.beyond next h.grown]
        exact .init fun hn => Nat.lt_irrefl _ (h.named next hn)
      · exact h.mirror q }

-- ---------------------------------------------------------------------------
-- Records
-- ---------------------------------------------------------------------------

/-- A record that is about no page and commits nothing. -/
theorem PlainRule.of_quiet {r : Record} (hlife : Lifecycle log r) (hend : r.body.isCheckpointEnd = false)
    (hp : r.body.page? = none) : PlainRule log r := by
  have hnot : ∀ p s old new k, r.body ≠ .update p s old new k := by
    intro p s old new k hb
    rw [hb] at hp
    cases hp
  exact ⟨⟨hlife, fun p s old new k hb => absurd hb (hnot p s old new k)⟩, hend,
    fun p s k => hnot p s [] [] k⟩

theorem WalInv.append_quiet (h : WalInv n next committed lm disk heap) {pr : Option Nat} {b : RecordBody}
    (hlife : Lifecycle lm.log ⟨lm.nextLsn, t, pr, b⟩) (hend : b.isCheckpointEnd = false)
    (hp : b.page? = none) (hc : b ≠ .commit) :
    WalInv n next committed (lm.append t pr b).1 disk heap where
  hist := by
    rw [LogManager.append_log]
    exact .snoc h.hist (.of_quiet hlife hend hp)
  ok := h.ok.append t pr b
  files := h.files
  mirror q := by
    rw [LogManager.append_log]
    exact (h.mirror q).append_other (by rw [hp]; exact (Option.some_ne_none q).symm)
  beyond := h.beyond
  grown := h.grown
  named q hq := by
    rw [LogManager.append_log] at hq
    refine h.named q ((named_append_one.mp hq).resolve_right ?_)
    rw [hp]
    exact (Option.some_ne_none q).symm
  buffer r hr := by
    rcases List.mem_append.mp hr with hr | hr
    · exact h.buffer r hr
    · rw [List.mem_singleton.mp hr]
      exact hc
  committed := by
    rw [LogManager.append_log, committedContents_append_one hc]
    exact h.committed

/-- **A record of a page, with the page that it leaves**: an UPDATE or a CLR. -/
theorem WalInv.append_page (h : WalInv n next committed lm disk heap) {pr : Option Nat} {b : RecordBody}
    {y : Page} (hr : PlainRule lm.log ⟨lm.nextLsn, t, pr, b⟩) (hw : b.write? = some (p, slot, new))
    (hp : p < next) (hne : ∀ q u o k, b = .update q u o [] k → o ≠ [])
    (hlive : new = [] → (heap p).readRecord slot ≠ none) (hlog : 0 < lm.log.length)
    (hredo : ∀ z, Page.Tighter z (heap p) → redoFits z b = true ∧
      Page.Tighter (redoRecord z b lm.nextLsn) y)
    (hy : y.pageLsn = lm.nextLsn) (hi : PageOps.inited y = true) :
    WalInv n next committed (lm.append t pr b).1 disk fun q => if q = p then y else heap q where
  hist := by
    rw [LogManager.append_log]
    exact .snoc h.hist hr
  ok := h.ok.append t pr b
  files := h.files
  mirror q := by
    rw [LogManager.append_log]
    split
    · rename_i hq
      subst hq
      obtain ⟨hfits, ht⟩ := hredo _ (h.mirror q).tighter
      exact (h.mirror q).append_self h.ok.next hlog hw hne hlive hfits ht hy hi
    · rename_i hq
      refine (h.mirror q).append_other fun hc => hq ?_
      rw [RecordBody.page?, hw] at hc
      exact (Option.some.inj hc).symm
  beyond := h.beyond
  grown := h.grown
  named q hq := by
    rw [LogManager.append_log] at hq
    rcases named_append_one.mp hq with hq | hq
    · exact h.named q hq
    · rw [RecordBody.page?, hw] at hq
      exact Option.some.inj hq ▸ hp
  buffer r hr := by
    rcases List.mem_append.mp hr with hr | hr
    · exact h.buffer r hr
    · rw [List.mem_singleton.mp hr]
      rintro hb
      rw [show b = .commit from hb] at hw
      cases hw
  committed := by
    rw [LogManager.append_log, committedContents_append_one]
    · exact h.committed
    · rintro hb
      rw [show b = .commit from hb] at hw
      cases hw

theorem TxnTable.begin (h : TxnTable log att nextTxnId) (hlsn : p = log.length) :
    Lifecycle log ⟨p, nextTxnId, none, .begin⟩ ∧
    TxnTable (log ++ [⟨p, nextTxnId, none, .begin⟩]) (att.insert nextTxnId p) (nextTxnId + 1) := by
  have hnone := h.fresh nextTxnId (Nat.le_refl _)
  have hlife : Lifecycle log ⟨p, nextTxnId, none, .begin⟩ := ⟨hlsn, hnone, rfl⟩
  refine ⟨hlife, AttExact.append_one (x := (att, ∅)) h.exact hlife, fun t ht => ?_⟩
  rw [active_append_one_ne (by show nextTxnId ≠ t; omega)]
  exact h.fresh t (by omega)

/-- A record of an open transaction that stays open. -/
theorem TxnTable.append (h : TxnTable log att nextTxnId) {r : Record} {att' : Table}
    (hlife : Lifecycle log r) (hatt : (analysisStep (att, ∅) r).1 = att')
    (hopen : active log r.txnId ≠ none) : TxnTable (log ++ [r]) att' nextTxnId := by
  refine ⟨hatt ▸ AttExact.append_one (x := (att, ∅)) h.exact hlife, fun t ht => ?_⟩
  rw [active_append_one_ne]
  · exact h.fresh t ht
  · rintro rfl
    exact hopen (h.fresh _ ht)

/-- A record with which a transaction is closed, if it was not before. -/
theorem TxnTable.close (h : TxnTable log att nextTxnId) {r : Record} {att' : Table}
    (hlife : Lifecycle log r) (hatt : (analysisStep (att, ∅) r).1 = att')
    (hnone : active (log ++ [r]) r.txnId = none) : TxnTable (log ++ [r]) att' nextTxnId := by
  refine ⟨hatt ▸ AttExact.append_one (x := (att, ∅)) h.exact hlife, fun t ht => ?_⟩
  by_cases hr : r.txnId = t
  · rw [← hr, hnone]
  · rw [active_append_one_ne hr]
    exact h.fresh t ht

theorem TxnTable.congr (h : TxnTable log att nextTxnId) {log' : List Record}
    (hact : ∀ t, active log' t = active log t) : TxnTable log' att nextTxnId :=
  ⟨fun t => by rw [h.exact t, hact], fun t ht => by rw [hact, h.fresh t ht]⟩

theorem TxnTable.lookup (h : TxnTable log att nextTxnId) (hv : active log t = some v) :
    att.lookup t = some v.last := by
  rw [h.exact t, hv]
  rfl

theorem active_length (h : active log t = some v) : 0 < log.length := by
  rw [List.length_pos_iff]
  rintro rfl
  cases h

/-- **An UPDATE**, with the page that the shell has changed and the stamp. -/
theorem WalInv.update (h : WalInv n next committed lm disk heap) (key : Int) (ht : OnlyOpen lm.log t) {y : Page}
    (hv : active lm.log t = some v) (hp : p < next) (hold : image old = contents lm.log p slot)
    (hne : new = [] → old ≠ []) (hredo : Page.Redoes (heap p) y slot old new)
    (hi : PageOps.inited y = true) :
    Lifecycle lm.log ⟨lm.nextLsn, t, some v.last, .update p slot old new key⟩ ∧
    WalInv n next committed (lm.append t (some v.last) (.update p slot old new key)).1 disk
      fun q => if q = p then y.setPageLsn lm.nextLsn else heap q := by
  have hlife : Lifecycle lm.log ⟨lm.nextLsn, t, some v.last, .update p slot old new key⟩ := by
    obtain ⟨v', hv', hroll⟩ := ht.opened
    obtain rfl := Option.some.inj (hv.symm.trans hv')
    exact ⟨h.ok.next, v, hv, hroll, rfl⟩
  refine ⟨hlife, h.append_page ⟨⟨hlife, ?_⟩, rfl, ?_⟩ rfl hp ?_ ?_ (active_length hv)
    (fun z hz => hredo z p key lm.nextLsn hz) (Page.pageLsn_setPageLsn _ _) ?_⟩
  · intro p' s' o' n' k' hb
    obtain ⟨rfl, rfl, rfl, rfl, rfl⟩ := RecordBody.update.inj hb
    exact ⟨hold, fun t' v' hne hv' => absurd (ht.only t' v' hv') hne⟩
  · intro p' s' k' hb
    obtain ⟨-, -, rfl, rfl, -⟩ := RecordBody.update.inj hb
    exact hne rfl rfl
  · intro q u o k hb
    obtain ⟨-, -, rfl, rfl, -⟩ := RecordBody.update.inj hb
    exact hne rfl
  · intro hn
    rw [(h.mirror p).read, ← hold, image_of_ne (hne hn)]
    exact Option.some_ne_none old
  · exact (Page.inited_setPageLsn_bytes y lm.nextLsn).trans hi

/-- **COMMIT and the flush**: what the log describes is committed. -/
theorem WalInv.commit (h : WalInv n next committed lm disk heap) (ht : OnlyOpen lm.log t)
    (hv : active lm.log t = some v) (hkv : Represents (contents lm.log) kv) :
    Lifecycle lm.log ⟨lm.nextLsn, t, some v.last, .commit⟩ ∧
    (∀ t', active (lm.log ++ [⟨lm.nextLsn, t, some v.last, .commit⟩]) t' = none) ∧
    WalInv n next kv ((lm.append t (some v.last) .commit).1.flush lm.nextLsn) disk heap := by
  have hlife : Lifecycle lm.log ⟨lm.nextLsn, t, some v.last, .commit⟩ := by
    obtain ⟨v', hv', hroll⟩ := ht.opened
    obtain rfl := Option.some.inj (hv.symm.trans hv')
    exact ⟨h.ok.next, v, hv, hroll, rfl⟩
  have hlog : (lm.append t (some v.last) .commit).1.log = lm.log ++ [⟨lm.nextLsn, t, some v.last, .commit⟩] :=
    LogManager.append_log _ _ _
  have hrule : PlainRule lm.log ⟨lm.nextLsn, t, some v.last, .commit⟩ := .of_quiet hlife rfl rfl
  have hnone : ∀ t', active (lm.log ++ [⟨lm.nextLsn, t, some v.last, .commit⟩]) t' = none := by
    intro t'
    by_cases htt : t = t'
    · rw [← htt]
      exact active_append_one_self
    · rw [active_append_one_ne htt]
      cases hv' : active lm.log t' with
      | none => rfl
      | some v' => exact absurd (ht.only t' v' hv').symm htt
  have hhist : History PlainRule (lm.log ++ [⟨lm.nextLsn, t, some v.last, .commit⟩]) := .snoc h.hist hrule
  -- the flush empties the buffer, as the COMMIT is in it
  have hflush : ((lm.append t (some v.last) .commit).1.flush lm.nextLsn).buffer = [] := by
    have hok := h.ok.append t (some v.last) .commit
    have hlt : lm.nextLsn < (lm.append t (some v.last) .commit).1.log.length := by
      rw [hlog, List.length_append, h.ok.next]
      exact Nat.lt_succ_self _
    have hfile := hok.lt_flush hlt
    rcases (lm.append t (some v.last) .commit).1.flush_eq lm.nextLsn with hl | hl
    · rw [hl] at hfile
      have hle : lm.file.length ≤ lm.log.length := LogManager.length_file_le
      rw [LogManager.append_file, h.ok.next] at hfile
      omega
    · rw [hl, LogManager.flushAll_buffer]
  refine ⟨hlife, hnone, ?_⟩
  have hmirror : ∀ q, Mirror (lm.log ++ [⟨lm.nextLsn, t, some v.last, .commit⟩]) q (disk q) (heap q) :=
    fun q => (h.mirror q).append_other (Option.some_ne_none q).symm
  refine ⟨?_, (h.ok.append t (some v.last) .commit).flush _, fun q => ?_, ?_, h.beyond, h.grown, ?_, ?_, ?_⟩
  · rw [LogManager.flush_log, hlog]
    exact hhist
  · have hm := hmirror q
    rw [← hlog] at hm
    have hfile : Intact (lm.append t (some v.last) .commit).1.file q (disk q) := h.files q
    exact hfile.flush hm _
  · rw [LogManager.flush_log, hlog]
    exact hmirror
  · rw [LogManager.flush_log, hlog]
    exact fun q hq => h.named q ((named_append_one.mp hq).resolve_right (Option.some_ne_none q).symm)
  · rw [hflush]
    exact fun r hr => absurd hr List.not_mem_nil
  · rw [LogManager.flush_log, hlog, ← contents_eq_committed hhist.logLegit hnone, contents_append_one,
      show applyBody (contents lm.log) .commit = contents lm.log from rfl]
    exact hkv

/-- **A CLR**, with the page on which `abort` has taken back the UPDATE. -/
theorem WalInv.clr (h : WalInv n next committed lm disk heap) {u : Nat} {us : List Nat} {ru : Record}
    (hv : active lm.log t = some v) (hpend : v.pend = u :: us) (hru : lm.log[u]? = some ru)
    (hb : ru.body = .update p slot old new key) (hroom : undoFits (heap p) slot old new = true) :
    WalInv n next committed (lm.append t (some v.last) (.clr p slot old ru.prevLsn)).1 disk
      fun q => if q = p then undoRecord (heap p) slot old new lm.nextLsn else heap q := by
  have hmir := h.mirror p
  have hnamed : Named lm.log p := ⟨ru, List.mem_of_getElem? hru, by
    rw [hb, RecordBody.page?, RecordBody.write?, Option.map_some]⟩
  obtain ⟨hrule, hfits, hundo, hlive⟩ := h.hist.clr hv hpend hru hb h.ok.next hmir.tighter.right hmir.read hroom
  rw [hundo]
  refine h.append_page hrule rfl (h.named p hnamed) (fun _ _ _ _ hc => by cases hc) hlive (active_length hv)
    (fun z hz => hz.redoRecord hfits lm.nextLsn) (lsn_redoRecord (P := Page) _ _ _) ?_
  have hw : RecordBody.write? (.clr p slot old ru.prevLsn) = some (p, slot, old) := rfl
  exact Page.inited_redoRecord hmir.tighter.right hw (fun _ _ _ _ hc => by cases hc) hfits hlive lm.nextLsn

/-- **A crash** leaves what recovery needs. -/
theorem WalInv.crash (h : WalInv n next committed lm disk heap) :
    Files lm.file disk n ∧ Represents (committedContents lm.file) committed := by
  refine ⟨⟨h.hist.of_append, h.files, h.beyond⟩, ?_⟩
  have := h.committed
  rwa [LogManager.log, committedContents_append h.buffer] at this

end PersistX
