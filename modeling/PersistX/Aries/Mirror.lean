import PersistX.Aries.Replay
import PersistX.Page.Tighter

/-!
# PersistX — a page and its image in the file

`Intact` is what recovery needs of the image of a page in the database file: redo of
the log file has room on it and ends in the contents that the log describes.
`Mirror` says the same of the whole log and ties the outcome to the page in the
pool, which it is tighter than. `Redoing` is the way from the one to the other.

Main results: `Mirror.append_self` — a change that is logged; `Mirror.intact_written` —
a page that is written after `enforce_wal`; `Redoing.step` and `Redoing.mirror` —
the redo pass.
-/

namespace PersistX

open PageOps LawfulPageOps

/-- What the shell and the recovery append: legitimate records that change something, no checkpoint. -/
def PlainRule (log : List Record) (r : Record) : Prop :=
  Legit log r ∧ r.body.isCheckpointEnd = false ∧ ∀ p s k, r.body ≠ .update p s [] [] k

/-- The log has a record of the page. -/
def Named (log : List Record) (p : Nat) : Prop := ∃ r ∈ log, r.body.page? = some p

/-- An image from which redo of the log gives the contents that the log describes. -/
structure Intact (file : List Record) (p : Nat) (d : Page) : Prop where
  wf : Page.Wf d
  room : RedoRoom p d file
  read : ∀ s, (replay p file d).readRecord s = contents file p s
  lsn : d.pageLsn ≤ file.length - 1
  inited : Named file p → PageOps.inited (replay p file d) = true

/-- The page `x` in the pool, with `d` its image in the file. -/
structure Mirror (log : List Record) (p : Nat) (d x : Page) : Prop where
  wf : Page.Wf d
  room : RedoRoom p d log
  tighter : Page.Tighter (replay p log d) x
  lsn : (replay p log d).pageLsn = x.pageLsn
  seen : Seen p log x
  bound : x.pageLsn ≤ log.length - 1
  read : ∀ s, x.readRecord s = contents log p s
  inited : Named log p → PageOps.inited (replay p log d) = true ∧ PageOps.inited x = true

variable {file log a b : List Record} {r : Record} {p q s m : Nat} {d x y : Page} {lm : LogManager}

theorem History.lsn {rule : List Record → Record → Prop} (hrule : ∀ l r, rule l r → Lifecycle l r)
    (h : History rule log) : ∀ (i : Nat) (r : Record), log[i]? = some r → r.lsn = i := (h.lifecycle hrule).1

theorem PlainRule.lifecycle (l : List Record) (r : Record) (h : PlainRule l r) : Lifecycle l r := h.1.1

theorem History.logLegit (h : History PlainRule log) : History Legit log := h.mono fun _ _ hr => hr.1

theorem History.logLsn (h : History PlainRule log) :
    ∀ (i : Nat) (r : Record), log[i]? = some r → r.lsn = i := h.lsn PlainRule.lifecycle

/-- No record of a rule-abiding log is the update of nothing to nothing. -/
theorem History.changes (h : History PlainRule log) : ∀ r ∈ log, ∀ q u k, r.body ≠ .update q u [] [] k := by
  intro r hr
  obtain ⟨i, hi⟩ := List.mem_iff_getElem?.mp hr
  exact (h.rule_at hi).2.2

theorem Named.append (h : Named a p) (b : List Record) : Named (a ++ b) p := by
  obtain ⟨r, hr, hp⟩ := h
  exact ⟨r, List.mem_append_left _ hr, hp⟩

theorem named_append_one : Named (log ++ [r]) p ↔ Named log p ∨ r.body.page? = some p := by
  constructor
  · rintro ⟨r', hr', hp⟩
    rcases List.mem_append.mp hr' with hr' | hr'
    · exact .inl ⟨r', hr', hp⟩
    · exact .inr (List.mem_singleton.mp hr' ▸ hp)
  · rintro (h | h)
    · exact h.append [r]
    · exact ⟨r, List.mem_append_right _ (List.mem_singleton.mpr rfl), h⟩

/-- Records of other pages do not change a page's contents. -/
theorem contents_append_other (h : ∀ r ∈ b, r.body.page? ≠ some p) (s : Nat) :
    contents (a ++ b) p s = contents a p s := by
  rw [contents, List.foldl_append]
  exact foldl_applyBody_of_not_writes b _ fun r hr => RecordBody.not_writes_of_page (h r hr) s

/-- A page without a record has no contents. -/
theorem contents_of_not_named (h : ¬ Named log p) (s : Nat) : contents log p s = none := by
  have := contents_append_other (a := []) (b := log) (p := p) (fun r hr hp => h ⟨r, hr, hp⟩) s
  rwa [List.nil_append] at this

-- ---------------------------------------------------------------------------
-- The log grows
-- ---------------------------------------------------------------------------

theorem Mirror.intact (h : Mirror log p d x) : Intact log p d where
  wf := h.wf
  room := h.room
  read s := by rw [h.tighter.read, h.read]
  lsn := by
    have hle : d.pageLsn ≤ (replay p log d).pageLsn := le_pageLsn_replay p log d
    have := h.lsn
    have := h.bound
    omega
  inited hn := (h.inited hn).1

/-- The image is replaced by the page itself. -/
theorem Mirror.written (h : Mirror log p d x) : Mirror log p x x where
  wf := h.tighter.right
  room := h.seen.redoRoom
  tighter := by
    rw [h.seen.replay]
    exact .refl h.tighter.right
  lsn := by rw [h.seen.replay]
  seen := h.seen
  bound := h.bound
  read := h.read
  inited hn := by
    rw [h.seen.replay]
    exact ⟨(h.inited hn).2, (h.inited hn).2⟩

/-- A page without a record: nothing of the log concerns it. -/
theorem Mirror.of_not_named (h : ¬ Named log p) (ht : Page.Tighter d x) (hlsn : d.pageLsn = x.pageLsn)
    (hbound : x.pageLsn ≤ log.length - 1) (hread : ∀ s, x.readRecord s = none) : Mirror log p d x := by
  have hseen : ∀ y : Page, Seen p log y := fun y r hr hp => absurd ⟨r, hr, hp⟩ h
  have hreplay : replay p log d = d := (hseen d).replay
  refine ⟨ht.left, (hseen d).redoRoom, by rw [hreplay]; exact ht, by rw [hreplay, hlsn], hseen x, hbound,
    fun s => by rw [hread, contents_of_not_named h], fun hn => absurd hn h⟩

/-- Fresh from `init` in the pool, and not in the file. -/
theorem Mirror.init (h : ¬ Named log p) : Mirror log p Page.zero (Page.init p) := by
  have hsame := Page.same_init p
  have hlsn : (Page.init p).pageLsn = 0 := by rw [Page.init, Page.pageLsn_setPageLsn]
  have hread : (Page.init p).readRecord = Page.zero.readRecord :=
    funext fun s => (hsame.symm.read Page.wf_zero s).symm
  refine .of_not_named h ((Page.Tighter.refl Page.wf_zero).of_same (.refl _) hsame.symm) ?_ ?_
    fun s => ?_
  · rw [hlsn]
    rfl
  · rw [hlsn]
    exact Nat.zero_le _
  · rw [hread]
    exact LawfulPageOps.read_zero (P := Page) s

/-- Zeros in the pool and in the file. -/
theorem Mirror.blank (h : ¬ Named log p) : Mirror log p Page.zero Page.zero := by
  have hlsn : Page.zero.pageLsn = 0 := rfl
  refine .of_not_named h (.refl Page.wf_zero) rfl ?_ fun s => LawfulPageOps.read_zero (P := Page) s
  rw [hlsn]
  exact Nat.zero_le _

theorem Mirror.append_other (h : Mirror log p d x) (hr : r.body.page? ≠ some p) :
    Mirror (log ++ [r]) p d x := by
  have hreplay : replay p (log ++ [r]) d = replay p log d := by
    rw [replay_append_one, redoChecked_of_page hr]
  have hother : ∀ r' ∈ [r], r'.body.page? ≠ some p := by
    intro r' hr'
    rwa [List.mem_singleton.mp hr']
  refine ⟨h.wf, redoRoom_append_one.mpr ⟨h.room, fun hp => absurd hp hr⟩, by rw [hreplay]; exact h.tighter,
    by rw [hreplay, h.lsn], h.seen.append fun r' hr' hp => absurd hp (hother r' hr'), ?_, fun u => ?_, ?_⟩
  · have := h.bound
    rw [List.length_append]
    omega
  · rw [h.read, contents_append_other hother]
  · rw [hreplay]
    exact fun hn => h.inited ((named_append_one.mp hn).resolve_right hr)

/-- **A change is logged.** What redo makes of the image with the record is tighter than the page
with the change and the stamp. -/
theorem Mirror.append_self {new : Bytes} (h : Mirror log p d x) (hlsn : r.lsn = log.length)
    (hpos : 0 < log.length) (hw : r.body.write? = some (p, s, new))
    (hne : ∀ q u o k, r.body = .update q u o [] k → o ≠ []) (hlive : new = [] → x.readRecord s ≠ none)
    (hfits : redoFits (replay p log d) r.body = true)
    (ht : Page.Tighter (redoRecord (replay p log d) r.body r.lsn) y) (hy : y.pageLsn = r.lsn)
    (hi : PageOps.inited y = true) : Mirror (log ++ [r]) p d y := by
  have hp : r.body.page? = some p := by rw [RecordBody.page?, hw, Option.map_some]
  have hbelow : PageOps.pageLsn (replay p log d) < r.lsn := by
    have h₁ : PageOps.pageLsn (replay p log d) = x.pageLsn := h.lsn
    have h₂ := h.bound
    omega
  have hreplay : replay p (log ++ [r]) d = redoRecord (replay p log d) r.body r.lsn := by
    rw [replay_append_one, redoChecked_of_lt hp hbelow]
  obtain ⟨-, hread⟩ := redoRecord_spec (P := Page) r.lsn h.tighter.left hw hne hfits
  have hinit : PageOps.inited (redoRecord (replay p log d) r.body r.lsn) = true :=
    Page.inited_redoRecord h.tighter.left hw hne hfits (fun hn => by rw [h.tighter.read]; exact hlive hn) _
  refine ⟨h.wf, redoRoom_append_one.mpr ⟨h.room, fun _ _ => hfits⟩, by rw [hreplay]; exact ht, ?_, ?_, ?_,
    fun u => ?_, fun _ => by rw [hreplay]; exact ⟨hinit, hi⟩⟩
  · rw [hreplay, hy]
    exact lsn_redoRecord (P := Page) _ _ _
  · refine Seen.append (h.seen.mono ?_) fun r' hr' _ => by rw [List.mem_singleton.mp hr']; exact Nat.le_of_eq hy.symm
    have h₁ : PageOps.pageLsn (replay p log d) = x.pageLsn := h.lsn
    show x.pageLsn ≤ y.pageLsn
    omega
  · rw [hy, hlsn, List.length_append]
    exact Nat.le_refl _
  · rw [← ht.read, contents_append_one]
    refine (hread u).trans ?_
    split
    · rename_i hu
      rw [hu, applyBody_of_write hw]
    · rename_i hu
      rw [applyBody_of_not_writes, ← h.read, ← h.tighter.read]
      · rfl
      · rintro ⟨new', hw'⟩
        rw [hw, Option.some.injEq, Prod.mk.injEq, Prod.mk.injEq] at hw'
        exact hu hw'.2.1.symm

-- ---------------------------------------------------------------------------
-- Log and pages reach the files
-- ---------------------------------------------------------------------------

/-- The log is flushed, or is not. -/
theorem Intact.flush (h : Intact lm.file p d) (hm : Mirror lm.log p d x) (l : Nat) :
    Intact (lm.flush l).file p d := by
  rcases lm.flush_eq l with hl | hl
  · rwa [hl]
  · rw [hl, LogManager.flushAll_file]
    exact hm.intact

/-- **`enforce_wal` and `write_page`.** The log file has every record that the image shows. -/
theorem Mirror.intact_written (h : Mirror lm.log p d x) (hok : lm.Ok)
    (hlsn : ∀ (i : Nat) (r : Record), lm.log[i]? = some r → r.lsn = i) :
    Intact (lm.flush x.pageLsn).file p x := by
  obtain ⟨b, hb⟩ : ∃ b, lm.log = (lm.flush x.pageLsn).file ++ b :=
    ⟨_, (LogManager.flush_log x.pageLsn).symm⟩
  generalize hf : (lm.flush x.pageLsn).file = f at hb
  have hbound := h.bound
  have hlen : x.pageLsn ≤ f.length - 1 := by
    rcases Nat.lt_or_ge x.pageLsn lm.log.length with hlt | hge
    · have := hok.lt_flush hlt
      rw [hf] at this
      omega
    · omega
  -- what is not in the file is not about the page
  have hrest : ∀ r ∈ b, r.body.page? ≠ some p := by
    intro r hr hp
    obtain ⟨i, hi⟩ := List.mem_iff_getElem?.mp hr
    have hpos : lm.log[f.length + i]? = some r := by
      rw [hb, List.getElem?_append_right (Nat.le_add_right _ _), Nat.add_sub_cancel_left, hi]
    have hle : r.lsn ≤ PageOps.pageLsn x := h.seen r (List.mem_of_getElem? hpos) hp
    have hle' : r.lsn ≤ x.pageLsn := hle
    rw [hlsn _ _ hpos] at hle'
    have hne : f.length ≠ 0 := by
      intro hzero
      have hlt := (List.getElem?_eq_some_iff.mp hpos).1
      have hlog : x.pageLsn < lm.log.length := by omega
      have := hok.lt_flush hlog
      rw [hf] at this
      omega
    omega
  have hseen : Seen p f x := Seen.of_append_left (b := b) (hb ▸ h.seen)
  refine ⟨h.tighter.right, hseen.redoRoom, fun u => ?_, hlen, fun hn => ?_⟩
  · rw [hseen.replay, h.read, hb, contents_append_other hrest]
  · rw [hseen.replay]
    exact (h.inited (hb ▸ hn.append b)).2

-- ---------------------------------------------------------------------------
-- Redo
-- ---------------------------------------------------------------------------

/-- The first `m` records of the file are behind the page; `d` is its image in the file. -/
structure Redoing (file : List Record) (m p : Nat) (d x : Page) : Prop where
  wf : Page.Wf x
  room : RedoRoom p x file
  same : replay p file x = replay p file d
  seen : Seen p (file.take m) x
  lsn : x.pageLsn ≤ file.length - 1

theorem Intact.redoing (h : Intact file p d) : Redoing file 0 p d d :=
  ⟨h.wf, h.room, rfl, fun _ hr => absurd hr List.not_mem_nil, h.lsn⟩

/-- The page is written. -/
theorem Redoing.intact (h : Redoing file m p d x) (hd : Intact file p d) : Intact file p x :=
  ⟨h.wf, h.room, by rw [h.same]; exact hd.read, h.lsn, by rw [h.same]; exact hd.inited⟩

theorem Redoing.written (h : Redoing file m p d x) : Redoing file m p x x :=
  ⟨h.wf, h.room, rfl, h.seen, h.lsn⟩

/-- **One record of redo.** -/
theorem Redoing.step (h : Redoing file m p d x) (hr : file[m]? = some r) (hlsn : r.lsn = m)
    (hne : ∀ q u k, r.body ≠ .update q u [] [] k) : Redoing file (m + 1) p d (redoChecked p x r) := by
  have hm := (List.getElem?_eq_some_iff.mp hr).1
  have hsplit : file = file.take m ++ r :: file.drop (m + 1) := by
    conv_lhs => rw [← List.take_append_drop m file]
    rw [List.drop_eq_getElem_cons hm, (List.getElem?_eq_some_iff.mp hr).2]
  have htake : file.take (m + 1) = file.take m ++ [r] := by
    rw [List.take_add_one, hr, Option.toList_some]
  have hfile : file = file.take (m + 1) ++ file.drop (m + 1) := (List.take_append_drop _ _).symm
  have hroom : RedoRoom p x (r :: file.drop (m + 1)) := by
    have := h.room
    rw [hsplit, redoRoom_append, h.seen.replay] at this
    exact this.2
  have hseen : Seen p (file.take (m + 1)) (redoChecked p x r) := by
    rw [htake]
    exact (h.seen.mono (le_pageLsn_redoChecked p x r)).append (seen_redoChecked p x r)
  refine ⟨wf_redoChecked h.wf ⟨hroom.1, trivial⟩ hne, ?_, ?_, hseen, ?_⟩
  · rw [hfile, redoRoom_append, hseen.replay]
    exact ⟨hseen.redoRoom, hroom.2⟩
  · rw [← h.same]
    conv_lhs => rw [hfile, replay_append, hseen.replay]
    conv_rhs => rw [hsplit, replay_append, h.seen.replay, replay_cons]
  · have hle := h.lsn
    show PageOps.pageLsn (redoChecked p x r) ≤ _
    rw [redoChecked]
    split
    · rw [lsn_redoRecord]
      omega
    · exact hle

/-- **Behind redo** the page is what the log describes. -/
theorem Redoing.mirror (h : Redoing file m p d x) (hm : file.length ≤ m) (hd : Intact file p d) :
    Mirror file p d x := by
  have hseen : Seen p file x := by
    have := h.seen
    rwa [List.take_of_length_le hm] at this
  have hx : replay p file d = x := by rw [← h.same, hseen.replay]
  refine ⟨hd.wf, hd.room, ?_, by rw [hx], hseen, h.lsn, fun u => ?_, fun hn => ?_⟩
  · rw [hx]
    exact .refl h.wf
  · rw [← hx, hd.read]
  · have := hd.inited hn
    rw [hx] at this ⊢
    exact ⟨this, this⟩

end PersistX
