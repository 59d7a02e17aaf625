import PersistX.Lib.Transition
import PersistX.Shell.CommandLine
import PersistX.Txn.Rollback

/-!
# PersistX — what can be typed

Everything that reaches the shell's commands comes out of a line. Keys and
counts can all be written; a value is put together from words, with single
spaces between them, so a quote can be inside of a word but not where a word
begins, and a newline nowhere.

Main results:

* `exists_line_iff` — which requests somebody can type: all of them, but for
  the values of `put` and `update`, where a quote must not come first or after a
  space.
* `Console.lines_iff` — a shell that reads lines gets exactly where a shell gets
  that is given the actions they stand for.
-/

namespace PersistX

open Decimal Transition

variable {line s w : Bytes} {words : List Bytes} {b : UInt8}

-- ---------------------------------------------------------------------------
-- What can be typed
-- ---------------------------------------------------------------------------

/-- No newline, and no quote that comes first or after a space. -/
def typableAfter : UInt8 → Bytes → Bool
  | _, [] => true
  | before, b :: bs => b != 10 && !(before == 32 && b == 34) && typableAfter b bs

/-- The values that a line can hold. -/
def typableValue (value : Bytes) : Bool := typableAfter 32 value

/-- The requests that a line can hold. -/
def Request.typable : Request → Bool
  | .put _ value | .update _ value => typableValue value
  | _ => true

/-- A word that needs no quotes, but for being empty. -/
def Unquoted (w : Bytes) : Prop := 32 ∉ w ∧ w.head? ≠ some 34

instance (w : Bytes) : Decidable (Unquoted w) := inferInstanceAs (Decidable (_ ∧ _))

/-- A word as it comes out of a line. -/
def WellRead (w : Bytes) : Prop := 10 ∉ w ∧ (34 ∉ w ∨ Unquoted w)

/-- A word without spaces as it is typed. -/
def typedWord (w : Bytes) : Bytes := if w = [] then [34, 34] else w

theorem joinWords_cons (w v : Bytes) (ws : List Bytes) :
    joinWords (w :: v :: ws) = w ++ 32 :: joinWords (v :: ws) := by
  rw [joinWords, List.intercalate_cons_cons, joinWords, List.append_assoc, List.singleton_append]

/-- The words of a line are well read. -/
theorem Renders.wellRead (h : Renders words line) (hline : 10 ∉ line) : ∀ w ∈ words, WellRead w := by
  induction h with
  | nil => exact fun w hw => absurd hw List.not_mem_nil
  | space _ ih => exact ih fun h => hline (List.mem_cons_of_mem _ h)
  | @quoted q words s hq _ ih =>
    rw [List.mem_cons, List.mem_append, List.mem_cons, not_or, not_or, not_or] at hline
    exact List.forall_mem_cons.mpr ⟨⟨hline.2.1, .inl hq⟩, ih hline.2.2.2⟩
  | @unclosed q hq =>
    rw [List.mem_cons, not_or] at hline
    exact List.forall_mem_singleton.mpr ⟨hline.2, .inl hq⟩
  | @word w words s _ hspace hhead _ _ ih =>
    rw [List.mem_append, not_or] at hline
    exact List.forall_mem_cons.mpr ⟨⟨hline.1, .inr ⟨hspace, hhead⟩⟩, ih hline.2⟩

-- ---------------------------------------------------------------------------
-- From a line to a value
-- ---------------------------------------------------------------------------

/-- Behind a word there is the end, or a space. -/
theorem typableAfter_append (h : typableAfter b w = true)
    (hs : ∀ c, typableAfter c s = true) : typableAfter b (w ++ s) = true := by
  induction w generalizing b with
  | nil => exact hs b
  | cons c w ih =>
    rw [typableAfter, Bool.and_eq_true] at h
    rw [List.cons_append, typableAfter, Bool.and_eq_true]
    exact ⟨h.1, ih h.2⟩

theorem typableAfter_of_no_quote (hline : 10 ∉ w) (h : 34 ∉ w) : typableAfter b w = true := by
  induction w generalizing b with
  | nil => rfl
  | cons c w ih =>
    rw [List.mem_cons, not_or] at hline h
    rw [typableAfter, ih hline.2 h.2]
    simp [Ne.symm hline.1, Ne.symm h.1]

theorem typableAfter_of_no_space (hline : 10 ∉ w) (h : 32 ∉ w) (hb : b ≠ 32) :
    typableAfter b w = true := by
  induction w generalizing b with
  | nil => rfl
  | cons c w ih =>
    rw [List.mem_cons, not_or] at hline h
    rw [typableAfter, ih hline.2 h.2 (Ne.symm h.1)]
    simp [Ne.symm hline.1, hb]

theorem WellRead.typable (h : WellRead w) : typableAfter 32 w = true := by
  obtain ⟨hline, hquote | ⟨hspace, hhead⟩⟩ := h
  · exact typableAfter_of_no_quote hline hquote
  · cases w with
    | nil => rfl
    | cons c w =>
      rw [List.mem_cons, not_or] at hline hspace
      have hc : c ≠ 34 := fun h => hhead (congrArg some h)
      rw [typableAfter, typableAfter_of_no_space hline.2 hspace.2 (Ne.symm hspace.1)]
      simp [Ne.symm hline.1, hc]

/-- Words that are put together again with single spaces. -/
theorem typableValue_joinWords (h : ∀ w ∈ words, WellRead w) : typableValue (joinWords words) = true := by
  induction words with
  | nil => rfl
  | cons w words ih =>
    rw [List.forall_mem_cons] at h
    cases words with
    | nil =>
      rw [joinWords, List.intercalate_singleton]
      exact h.1.typable
    | cons v words =>
      rw [joinWords_cons]
      refine typableAfter_append h.1.typable fun c => ?_
      rw [typableAfter, show typableAfter 32 (joinWords (v :: words)) = true from ih h.2]
      simp

theorem readKeyValue_typable {usage invalid : String} {make : Int64 → Bytes → Request} {r : Request}
    (hmake : ∀ k v, (make k v).typable = typableValue v) (hw : ∀ w ∈ words, WellRead w)
    (h : readKeyValue usage invalid make words = .ok r) : r.typable = true := by
  unfold readKeyValue at h
  split at h
  · rename_i cmd key v vs
    split at h
    · cases h
      rw [hmake]
      exact typableValue_joinWords fun w hmem =>
        hw w (List.mem_cons_of_mem _ (List.mem_cons_of_mem _ hmem))
    · cases h
  · cases h

theorem readNumber_typable {T : Type} {sto : Bytes → Option T} {usage invalid : String}
    {make : T → Request} {r : Request} (hmake : ∀ n, (make n).typable = true)
    (h : readNumber sto usage invalid make words = .ok r) : r.typable = true := by
  unfold readNumber at h
  split at h
  · split at h
    · cases h
      exact hmake _
    · cases h
  · cases h

theorem readScan_typable {r : Request} (h : readScan words = .ok r) : r.typable = true := by
  unfold readScan at h
  split at h
  · split at h
    · cases h
      rfl
    · cases h
  · cases h

theorem readWal_typable : (readWal words).typable = true := by
  unfold readWal
  split
  · rfl
  · rfl

theorem typable_of_ok {r r' : Request} (hr' : r'.typable = true)
    (h : (.ok r' : Except Refusal Request) = .ok r) : r.typable = true := by
  cases h
  exact hr'

/-- A branch of `dispatch`. -/
theorem typable_of_ite {r : Request} {c : Prop} [Decidable c] {x y : Except Refusal Request}
    (hx : x = .ok r → r.typable = true) (hy : y = .ok r → r.typable = true)
    (h : (if c then x else y) = .ok r) : r.typable = true := by
  split at h
  · exact hx h
  · exact hy h

/-- Only the two commands with a value read one. -/
theorem dispatch_typable {r : Request} (hw : ∀ w ∈ words, WellRead w) (h : dispatch words = .ok r) :
    r.typable = true := by
  have hput : readPut words = .ok r → r.typable = true := readKeyValue_typable (fun _ _ => rfl) hw
  have hupdate : readUpdate words = .ok r → r.typable = true := readKeyValue_typable (fun _ _ => rfl) hw
  have hget : readGet words = .ok r → r.typable = true := readNumber_typable fun _ => rfl
  have hdel : readDel words = .ok r → r.typable = true := readNumber_typable fun _ => rfl
  have hfill : readFill words = .ok r → r.typable = true := readNumber_typable fun _ => rfl
  have hbench : readBench words = .ok r → r.typable = true := readNumber_typable fun _ => rfl
  have hpage : readPage words = .ok r → r.typable = true := readNumber_typable fun _ => rfl
  have hunknown : ∀ cmd : Bytes, (.error (.unknown cmd) : Except Refusal Request) = .ok r →
      r.typable = true := by
    intro cmd h
    cases h
  exact typable_of_ite hput (typable_of_ite hget (typable_of_ite hdel (typable_of_ite readScan_typable
    (typable_of_ite hupdate (typable_of_ite (typable_of_ok rfl) (typable_of_ite (typable_of_ok rfl)
    (typable_of_ite (typable_of_ok rfl) (typable_of_ite (typable_of_ok rfl) (typable_of_ite (typable_of_ok rfl)
    (typable_of_ite (typable_of_ok rfl) (typable_of_ite (typable_of_ok readWal_typable) (typable_of_ite hpage
    (typable_of_ite (typable_of_ok rfl) (typable_of_ite (typable_of_ok rfl) (typable_of_ite (typable_of_ok rfl)
    (typable_of_ite (typable_of_ok rfl) (typable_of_ite hfill (typable_of_ite hbench
    (typable_of_ite (typable_of_ok rfl) (typable_of_ite (typable_of_ok rfl) (typable_of_ite (typable_of_ok rfl)
    (hunknown _)))))))))))))))))))))) h

theorem request_typable {r : Request} (hline : 10 ∉ line) (h : request line = some (.ok r)) :
    r.typable = true := by
  have hw := (renders_tokenize line).wellRead hline
  rw [request] at h
  split at h
  · cases h
  · exact dispatch_typable hw (Option.some.inj h)

-- ---------------------------------------------------------------------------
-- From a value to a line
-- ---------------------------------------------------------------------------

theorem joinWords_singleton (w : Bytes) : joinWords [w] = w := List.intercalate_singleton

/-- Words that are put together begin with the first one. -/
theorem head_joinWords (h : w.head? = some b) : (joinWords (w :: words)).head? = some b := by
  cases words with
  | nil => rwa [joinWords_singleton]
  | cons v words => rw [joinWords_cons, List.head?_append, h, Option.some_or]

theorem joinWords_cons_cons (c : UInt8) (w : Bytes) (words : List Bytes) :
    joinWords ((c :: w) :: words) = c :: joinWords (w :: words) := by
  cases words with
  | nil => rw [joinWords_singleton, joinWords_singleton]
  | cons v words => rw [joinWords_cons, joinWords_cons, List.cons_append]

theorem head_ne_of_typableValue {value : Bytes} (h : typableValue value = true) :
    value.head? ≠ some 34 := by
  intro hq
  obtain ⟨t, rfl⟩ := List.head?_eq_some_iff.mp hq
  simp [typableValue, typableAfter] at h

/-- A value that can be typed is cut at its spaces into words that need no quotes, but perhaps
for the first one. -/
theorem exists_words {value : Bytes} (h : typableAfter b value = true) :
    ∃ w words, joinWords (w :: words) = value ∧ (∀ v ∈ w :: words, 32 ∉ v ∧ 10 ∉ v) ∧
      ∀ v ∈ words, v.head? ≠ some 34 := by
  induction value generalizing b with
  | nil => exact ⟨[], [], rfl, by simp, by simp⟩
  | cons c value ih =>
    rw [typableAfter, Bool.and_eq_true, Bool.and_eq_true, bne_iff_ne] at h
    obtain ⟨w, words, hjoin, hw, hhead⟩ := ih h.2
    by_cases hc : c = 32
    · -- the word behind the space is the first one of what is behind it
      subst hc
      have hquote : w.head? ≠ some 34 := fun hq =>
        head_ne_of_typableValue h.2 (hjoin ▸ head_joinWords hq)
      refine ⟨[], w :: words, ?_, ?_, ?_⟩
      · rw [joinWords_cons, hjoin, List.nil_append]
      · exact List.forall_mem_cons.mpr ⟨⟨List.not_mem_nil, List.not_mem_nil⟩, hw⟩
      · exact List.forall_mem_cons.mpr ⟨hquote, hhead⟩
    · refine ⟨c :: w, words, by rw [joinWords_cons_cons, hjoin], ?_, hhead⟩
      rw [List.forall_mem_cons] at hw ⊢
      rw [List.mem_cons, List.mem_cons, not_or, not_or]
      exact ⟨⟨⟨Ne.symm hc, hw.1.1⟩, ⟨Ne.symm h.1.1, hw.1.2⟩⟩, hw.2⟩

/-- A value that can be typed, word by word. -/
theorem exists_unquoted {value : Bytes} (h : typableValue value = true) :
    ∃ w words, joinWords (w :: words) = value ∧ ∀ v ∈ w :: words, Unquoted v ∧ 10 ∉ v := by
  obtain ⟨w, words, hjoin, hw, hhead⟩ := exists_words h
  have hquote : w.head? ≠ some 34 := fun hq =>
    head_ne_of_typableValue h (hjoin ▸ head_joinWords hq)
  refine ⟨w, words, hjoin, fun v hv => ⟨⟨(hw v hv).1, ?_⟩, (hw v hv).2⟩⟩
  rcases List.mem_cons.mp hv with rfl | hv
  · exact hquote
  · exact hhead v hv

/-- One word, typed, in front of what is typed already. -/
theorem Renders.cons_typed (hw : Unquoted w) (hs : ∀ b, s.head? = some b → b = 32)
    (h : Renders words s) : Renders (w :: words) (typedWord w ++ s) := by
  by_cases hnil : w = []
  · subst hnil
    exact .quoted List.not_mem_nil h
  · rw [typedWord, if_neg hnil]
    exact .word hnil hw.1 hw.2 hs h

theorem renders_typed (h : ∀ v ∈ w :: words, Unquoted v) :
    Renders (w :: words) (joinWords ((w :: words).map typedWord)) := by
  induction words generalizing w with
  | nil =>
    have hone := Renders.nil.cons_typed (h w List.mem_cons_self) (by intro b hb; cases hb)
    rw [List.append_nil] at hone
    rwa [List.map_singleton, joinWords_singleton]
  | cons v words ih =>
    rw [List.forall_mem_cons] at h
    rw [List.map_cons, List.map_cons, joinWords_cons]
    refine Renders.cons_typed h.1 ?_ (.space (ih h.2))
    intro b hb
    exact (Option.some.inj hb).symm

theorem not_mem_joinWords (h : ∀ v ∈ words, b ∉ v) (hb : b ≠ 32) : b ∉ joinWords words := by
  induction words with
  | nil => exact List.not_mem_nil
  | cons w words ih =>
    rw [List.forall_mem_cons] at h
    cases words with
    | nil =>
      rw [joinWords_singleton]
      exact h.1
    | cons v words =>
      rw [joinWords_cons, List.mem_append, List.mem_cons, not_or, not_or]
      exact ⟨h.1, hb, ih h.2⟩

/-- There is a line with these words. -/
theorem exists_line_of_words (h : ∀ v ∈ w :: words, Unquoted v ∧ 10 ∉ v) :
    ∃ line, 10 ∉ line ∧ request line = some (dispatch (w :: words)) := by
  refine ⟨joinWords ((w :: words).map typedWord), ?_, ?_⟩
  · refine not_mem_joinWords ?_ (by decide)
    intro v hv
    obtain ⟨u, hu, rfl⟩ := List.mem_map.mp hv
    rw [typedWord]
    split
    · decide
    · exact (h u hu).2
  · rw [request, tokenize_of_renders (renders_typed fun v hv => (h v hv).1)]

/-- A number is a word of its own. -/
theorem unquoted_decimal (i : Int) : Unquoted (decimal i) ∧ 10 ∉ decimal i := by
  have hdigit : ∀ b ∈ decimal i, b = 45 ∨ isDigit b = true := fun b => decimal_plain
  have hnot : ∀ b, b ≠ 45 → isDigit b = false → b ∉ decimal i := by
    intro b hminus hb hmem
    rcases hdigit b hmem with h | h
    · exact hminus h
    · rw [hb] at h
      cases h
  refine ⟨⟨hnot 32 (by decide) (by decide), ?_⟩, hnot 10 (by decide) (by decide)⟩
  intro h
  exact hnot 34 (by decide) (by decide) (List.mem_of_head? h)

theorem stoll_decimal (key : Int64) : stoll (decimal key.toInt) = some key := by
  rw [stoll, readInt_decimal, Option.bind_some, if_pos ⟨Int64.le_toInt key, Int64.toInt_lt key⟩,
    Int64.ofInt_toInt]

theorem stoi_decimal (n : Int32) : stoi (decimal n.toInt) = some n := by
  rw [stoi, readInt_decimal, Option.bind_some, if_pos ⟨Int32.le_toInt n, Int32.toInt_lt n⟩,
    Int32.ofInt_toInt]

theorem stoul_decimal (pid : UInt32) : stoul (decimal pid.toNat) = some pid := by
  have hlt := pid.toNat_lt
  rw [stoul, readInt_decimal, Option.bind_some, if_pos (by omega)]
  have : ((pid.toNat : Int) % 2 ^ 32).toNat = pid.toNat := by omega
  rw [this, UInt32.ofNat_toNat]

theorem readKeyValue_typed {usage invalid : String} {make : Int64 → Bytes → Request} (cmd : Bytes)
    (key : Int64) : readKeyValue usage invalid make (cmd :: decimal key.toInt :: w :: words) =
      .ok (make key (joinWords (w :: words))) := by
  simp only [readKeyValue, stoll_decimal]

theorem readNumber_typed {T : Type} {sto : Bytes → Option T} {usage invalid : String}
    {make : T → Request} {arg : Bytes} {n : T} (cmd : Bytes) (h : sto arg = some n) :
    readNumber sto usage invalid make [cmd, arg] = .ok (make n) := by
  simp only [readNumber, h]

/-- A command of one word. -/
theorem exists_line_of_word {r : Request} (hw : Unquoted w ∧ 10 ∉ w) (h : dispatch [w] = .ok r) :
    ∃ line, 10 ∉ line ∧ request line = some (.ok r) := by
  rw [← h]
  exact exists_line_of_words (List.forall_mem_singleton.mpr hw)

/-- A command of one number. -/
theorem exists_line_of_number {r : Request} {i : Int} (hw : Unquoted w ∧ 10 ∉ w)
    (h : dispatch [w, decimal i] = .ok r) : ∃ line, 10 ∉ line ∧ request line = some (.ok r) := by
  rw [← h]
  exact exists_line_of_words
    (List.forall_mem_cons.mpr ⟨hw, List.forall_mem_singleton.mpr (unquoted_decimal i)⟩)

/-- A command of a key and a value. -/
theorem exists_line_of_value {make : Int64 → Bytes → Request} {key : Int64} {value : Bytes}
    (hw : Unquoted w ∧ 10 ∉ w) (hvalue : typableValue value = true)
    (h : ∀ v vs, dispatch (w :: decimal key.toInt :: v :: vs) = .ok (make key (joinWords (v :: vs)))) :
    ∃ line, 10 ∉ line ∧ request line = some (.ok (make key value)) := by
  obtain ⟨v, vs, rfl, hplain⟩ := exists_unquoted hvalue
  rw [← h]
  exact exists_line_of_words
    (List.forall_mem_cons.mpr ⟨hw, List.forall_mem_cons.mpr ⟨unquoted_decimal _, hplain⟩⟩)

/-- Every request that can be typed is typed somehow. -/
theorem exists_line {r : Request} (h : r.typable = true) :
    ∃ line, 10 ∉ line ∧ request line = some (.ok r) := by
  cases r with
  | put key value =>
    refine exists_line_of_value (w := ascii "put") (by decide) h fun v vs => ?_
    show readPut (ascii "put" :: decimal key.toInt :: v :: vs) = _
    exact readKeyValue_typed _ key
  | update key value =>
    refine exists_line_of_value (w := ascii "update") (by decide) h fun v vs => ?_
    show readUpdate (ascii "update" :: decimal key.toInt :: v :: vs) = _
    exact readKeyValue_typed _ key
  | get key =>
    refine exists_line_of_number (w := ascii "get") (i := key.toInt) (by decide) ?_
    show readGet [ascii "get", decimal key.toInt] = _
    exact readNumber_typed _ (stoll_decimal key)
  | del key =>
    refine exists_line_of_number (w := ascii "del") (i := key.toInt) (by decide) ?_
    show readDel [ascii "del", decimal key.toInt] = _
    exact readNumber_typed _ (stoll_decimal key)
  | scan b e =>
    have hread : dispatch [ascii "scan", decimal b.toInt, decimal e.toInt] = .ok (.scan b e) := by
      show readScan [ascii "scan", decimal b.toInt, decimal e.toInt] = _
      simp only [readScan, stoll_decimal]
    rw [← hread]
    exact exists_line_of_words (List.forall_mem_cons.mpr ⟨by decide, List.forall_mem_cons.mpr
      ⟨unquoted_decimal _, List.forall_mem_singleton.mpr (unquoted_decimal _)⟩⟩)
  | wal n =>
    refine exists_line_of_number (w := ascii "wal") (i := n.toInt) (by decide) ?_
    show Except.ok (readWal _) = _
    simp only [readWal, stoi_decimal, Option.getD_some]
  | page pid =>
    refine exists_line_of_number (w := ascii "page") (i := pid.toNat) (by decide) ?_
    show readPage [ascii "page", decimal pid.toNat] = _
    exact readNumber_typed _ (stoul_decimal pid)
  | fill n =>
    refine exists_line_of_number (w := ascii "fill") (i := n.toInt) (by decide) ?_
    show readFill [ascii "fill", decimal n.toInt] = _
    exact readNumber_typed _ (stoi_decimal n)
  | bench n =>
    refine exists_line_of_number (w := ascii "bench") (i := n.toInt) (by decide) ?_
    show readBench [ascii "bench", decimal n.toInt] = _
    exact readNumber_typed _ (stoi_decimal n)
  | begin => exact exists_line_of_word (w := ascii "begin") (by decide) rfl
  | commit => exact exists_line_of_word (w := ascii "commit") (by decide) rfl
  | abort => exact exists_line_of_word (w := ascii "abort") (by decide) rfl
  | status => exact exists_line_of_word (w := ascii "status") (by decide) rfl
  | tree => exact exists_line_of_word (w := ascii "tree") (by decide) rfl
  | buffer => exact exists_line_of_word (w := ascii "buffer") (by decide) rfl
  | flush => exact exists_line_of_word (w := ascii "flush") (by decide) rfl
  | checkpoint => exact exists_line_of_word (w := ascii "checkpoint") (by decide) rfl
  | crash => exact exists_line_of_word (w := ascii "crash") (by decide) rfl
  | recover => exact exists_line_of_word (w := ascii "recover") (by decide) rfl
  | help => exact exists_line_of_word (w := ascii "help") (by decide) rfl
  | clear => exact exists_line_of_word (w := ascii "clear") (by decide) rfl
  | exit => exact exists_line_of_word (w := ascii "exit") (by decide) rfl

/-- Somebody can type a request if and only if its value, when it has one, has no newline and no
quote that comes first or right after a space. -/
theorem exists_line_iff (r : Request) :
    (∃ line, 10 ∉ line ∧ request line = some (.ok r)) ↔ r.typable = true := by
  constructor
  · rintro ⟨line, hline, h⟩
    exact request_typable hline h
  · exact exists_line

/-- A quoted phrase at the end of a sentence is out of reach. -/
example : typableValue (ascii "said \"no\"") = false ∧ typableValue (ascii "a  5\" disk ") = true := by
  decide

-- ---------------------------------------------------------------------------
-- A shell that reads lines
-- ---------------------------------------------------------------------------

/-- The commands that a line can hold. -/
def Command.typable : Command → Bool
  | .put _ value _ | .update _ value _ => typableValue value
  | _ => true

/-- How `run` has come to its end. -/
inductive Console.Ending where
  /-- `running_` is false. -/
  | exited
  /-- `_Exit(1)`. -/
  | crashed
  deriving DecidableEq

/-- What a request comes to. Dirty frames are given by their page ids and page LSNs. -/
inductive Console.Action where
  | command (c : Command)
  /-- Dirty frames are written, by `flush_all_pages` or because a page that is looked at needs a
  frame. -/
  | writePages (frames : List (Nat × Nat))
  /-- `checkpoint`, with all the dirty frames there are. -/
  | checkpoint (frames : List (Nat × Nat))
  /-- `read_log`. -/
  | readLog
  | stop (ending : Ending)

/-- The actions that a line can stand for. -/
def Console.Action.typable : Console.Action → Bool
  | .command c => c.typable
  | _ => true

/-- A line, with what it does not say: how many pages the index takes, and the dirty frames that are
written. -/
structure Console.Typed where
  line : Bytes
  grow : Nat → Nat
  written : List (Nat × Nat)

/-- The shell at its prompt. -/
structure Console (P : Type) where
  shell : Shell P
  ending : Option Console.Ending

variable {P : Type}

/-- The log of the shell is written or read. -/
def Shell.withLog (s : Shell P) (lm : LogManager) : Shell P := { s with db := { s.db with lm } }

/-- `enforce_wal` for frames that are written. -/
def LogManager.enforceWal (lm : LogManager) (frames : List (Nat × Nat)) : LogManager :=
  frames.foldl (fun lm f => lm.flush f.2) lm

/-- `get_att_snapshot`. -/
def Database.getAttSnapshot (db : Database P) : List (Nat × Nat) :=
  db.att.entries.map fun e => (e.1, e.2)

/-- `checkpoint()`, the log of it: `get_dirty_pages` finds the frames that `flush_all_pages` writes
behind CHECKPOINT_END. -/
def Shell.checkpoint (s : Shell P) (frames : List (Nat × Nat)) : Shell P :=
  let (lm, _) := s.db.lm.append invalidU64 none .checkpointBegin
  let (lm, endLsn) := lm.append invalidU64 none (.checkpointEnd s.db.getAttSnapshot frames)
  s.withLog ((lm.enforceWal frames).flush endLsn)

/-- What a request does. `page` fetches any page id; one that is not allocated yet is no turn of this
machine, for the page stays in the pool when `new_page` gets there. No turn either is `recover`: it
frees the index that the transaction manager goes on using. -/
def Request.action (s : Shell P) (x : Console.Typed) : Request → Option Console.Action
  | .put key value => some (.command (.put key value (x.grow 0)))
  | .update key value => some (.command (.update key value (x.grow 0)))
  | .del key => some (.command (.del key))
  | .begin => some (.command .begin)
  | .commit => some (.command .commit)
  | .abort => some (.command (.abort (x.grow 0)))
  | .fill n => some (.command (.fill n x.grow))
  | .bench n => some (.command (.bench n x.grow))
  | .page pid => if pid.toNat < s.nextPageId then some (.writePages x.written) else none
  | .get _ | .scan _ _ | .status | .tree | .flush => some (.writePages x.written)
  | .buffer | .help | .clear => some (.writePages [])
  | .wal _ => some .readLog
  | .exit => some (.stop .exited)
  | .crash => some (.stop .crashed)
  | .checkpoint => some (.checkpoint x.written)
  | .recover => none

namespace Console

variable [PageOps P]

/-- Commands run as if the pool wrote no page meanwhile. -/
def act (c : Console P) (a : Action) : Option (Console P) :=
  if c.ending.isSome then none
  else
    match a with
    | .command cmd => (c.shell.step cmd).map fun s => { c with shell := s }
    | .writePages frames =>
      some { c with shell := c.shell.withLog (c.shell.db.lm.enforceWal frames) }
    | .checkpoint frames => some { c with shell := c.shell.checkpoint frames }
    | .readLog => some { c with shell := c.shell.withLog c.shell.db.lm.readLog.1 }
    | .stop e => some { c with ending := some e }

/-- The loop of `run`, once: a line that is refused, or has no words, does nothing. -/
def read (c : Console P) (x : Typed) : Option (Console P) :=
  if c.ending.isSome then none
  else
    match request x.line with
    | some (.ok r) => (r.action c.shell x).bind c.act
    | _ => some c

/-- The index leads to valid RIDs on allocated pages: no key is inserted a second time, and `get` and
`scan` fetch no other pages. -/
def Sound (c : Console P) : Prop :=
  ∀ k r, c.shell.db.index k = some r → r.isValid = true ∧ r.pageId < c.shell.nextPageId

/-- Runs of lines. -/
def Reads : Console P → Console P → Prop := Steps read fun c x => 10 ∉ x.line ∧ c.Sound

/-- Runs of actions that can be typed. -/
def Obeys : Console P → Console P → Prop := Steps act fun c a => a.typable = true ∧ c.Sound

end Console

theorem Request.typable_action {r : Request} {s : Shell P} {x : Console.Typed} {a : Console.Action}
    (h : r.action s x = some a) (hr : r.typable = true) : a.typable = true := by
  cases r with
  | put key value =>
    cases h
    exact hr
  | update key value =>
    cases h
    exact hr
  | page pid =>
    rw [Request.action] at h
    split at h
    · cases h
      rfl
    · cases h
  | _ => cases h <;> rfl

/-- Every action is what some request comes to. -/
theorem Console.Action.exists_request (s : Shell P) (a : Console.Action) :
    ∃ (r : Request) (x : Console.Typed), r.typable = a.typable ∧
      ∀ line, r.action s { x with line } = some a := by
  cases a with
  | command c =>
    cases c with
    | put key value grow => exact ⟨.put key value, ⟨[], fun _ => grow, []⟩, rfl, fun _ => rfl⟩
    | update key value grow => exact ⟨.update key value, ⟨[], fun _ => grow, []⟩, rfl, fun _ => rfl⟩
    | del key => exact ⟨.del key, ⟨[], fun _ => 0, []⟩, rfl, fun _ => rfl⟩
    | begin => exact ⟨.begin, ⟨[], fun _ => 0, []⟩, rfl, fun _ => rfl⟩
    | commit => exact ⟨.commit, ⟨[], fun _ => 0, []⟩, rfl, fun _ => rfl⟩
    | abort grow => exact ⟨.abort, ⟨[], fun _ => grow, []⟩, rfl, fun _ => rfl⟩
    | fill n grow => exact ⟨.fill n, ⟨[], grow, []⟩, rfl, fun _ => rfl⟩
    | bench n grow => exact ⟨.bench n, ⟨[], grow, []⟩, rfl, fun _ => rfl⟩
  | writePages frames => exact ⟨.flush, ⟨[], fun _ => 0, frames⟩, rfl, fun _ => rfl⟩
  | checkpoint frames => exact ⟨.checkpoint, ⟨[], fun _ => 0, frames⟩, rfl, fun _ => rfl⟩
  | readLog => exact ⟨.wal 10, ⟨[], fun _ => 0, []⟩, rfl, fun _ => rfl⟩
  | stop e =>
    cases e with
    | exited => exact ⟨.exit, ⟨[], fun _ => 0, []⟩, rfl, fun _ => rfl⟩
    | crashed => exact ⟨.crash, ⟨[], fun _ => 0, []⟩, rfl, fun _ => rfl⟩

theorem LogManager.enforceWal_log (lm : LogManager) (frames : List (Nat × Nat)) :
    (lm.enforceWal frames).log = lm.log := by
  induction frames generalizing lm with
  | nil => rfl
  | cons f frames ih => exact (ih (lm.flush f.2)).trans (lm.flush_log f.2)

theorem LogManager.Sound.enforceWal {lm : LogManager} (h : lm.Sound) (frames : List (Nat × Nat)) :
    (lm.enforceWal frames).Sound := by
  induction frames generalizing lm with
  | nil => exact h
  | cons f frames ih => exact ih (h.flush f.2)

/-- The two records of a checkpoint of the shell. -/
def Shell.checkpointRecords (s : Shell P) (frames : List (Nat × Nat)) : List Record :=
  [⟨s.db.lm.nextLsn, invalidU64, none, .checkpointBegin⟩,
    ⟨s.db.lm.nextLsn + 1, invalidU64, none, .checkpointEnd s.db.getAttSnapshot frames⟩]

theorem Shell.checkpoint_log (s : Shell P) (frames : List (Nat × Nat)) :
    (s.checkpoint frames).db.lm.log = s.db.lm.log ++ s.checkpointRecords frames := by
  have hbegin := s.db.lm.append_log invalidU64 none .checkpointBegin
  have hend := (s.db.lm.append invalidU64 none .checkpointBegin).1.append_log invalidU64 none
    (.checkpointEnd s.db.getAttSnapshot frames)
  rw [hbegin, List.append_assoc] at hend
  exact ((LogManager.flush_log _).trans (LogManager.enforceWal_log _ frames)).trans hend

theorem Shell.checkpoint_sound {s : Shell P} (h : s.db.lm.Sound) (frames : List (Nat × Nat)) :
    (s.checkpoint frames).db.lm.Sound :=
  (((h.append invalidU64 none .checkpointBegin).append invalidU64 none
    (.checkpointEnd s.db.getAttSnapshot frames)).enforceWal frames).flush _

/-- Where LSNs are positions, `read_log` finds none from `next_lsn_` on. -/
theorem LogManager.Sound.readLog {lm : LogManager} (h : lm.Sound) : lm.readLog.1 = lm := by
  have hlt : ∀ r ∈ lm.file, r.lsn < lm.nextLsn := by
    intro r hr
    obtain ⟨i, hi, hget⟩ := List.getElem_of_mem hr
    have hlog : lm.log[i]? = some r := by
      rw [LogManager.log, List.getElem?_append_left hi, List.getElem?_eq_getElem hi, hget]
    have hlen := (List.getElem?_eq_some_iff.mp hlog).1
    rw [h.lsn i r hlog, h.ok.next]
    exact hlen
  have hfold : ∀ l : List Record, (∀ r ∈ l, r.lsn < lm.nextLsn) →
      l.foldl (fun n r => if r.lsn ≥ n then r.lsn + 1 else n) lm.nextLsn = lm.nextLsn := by
    intro l
    induction l with
    | nil => exact fun _ => rfl
    | cons r l ih =>
      intro hl
      rw [List.forall_mem_cons] at hl
      rw [List.foldl_cons, if_neg (Nat.not_le.mpr hl.1)]
      exact ih hl.2
  have hnext := hfold lm.file hlt
  cases lm with
  | mk file buffer nextLsn flushedLsn =>
    simp only [LogManager.readLog] at hnext ⊢
    rw [hnext]

namespace Console

variable [PageOps P] {c c' : Console P}

/-- A line is an action, or nothing changes. -/
theorem obeys_read {x : Typed} (hok : 10 ∉ x.line ∧ c.Sound) (h : c.read x = some c') :
    c.Obeys c' := by
  rw [read] at h
  split at h
  · cases h
  · split at h
    · rename_i r hr
      obtain ⟨a, ha, hact⟩ := Option.bind_eq_some_iff.mp h
      have htyp := Request.typable_action ha (request_typable hok.1 hr)
      exact Steps.refl.next a ⟨htyp, hok.2⟩ hact
    · cases h
      exact .refl

/-- An action that can be typed is a line. -/
theorem reads_act {a : Action} (hok : a.typable = true ∧ c.Sound) (h : c.act a = some c') :
    c.Reads c' := by
  obtain ⟨r, x, hr, haction⟩ := a.exists_request c.shell
  obtain ⟨line, hline, hreq⟩ := exists_line (hr.trans hok.1)
  refine Steps.refl.next { x with line } ⟨hline, hok.2⟩ ?_
  have hend : c.ending.isSome ≠ true := by
    intro hend
    unfold act at h
    rw [if_pos hend] at h
    cases h
  simp only [read, if_neg hend, hreq, haction, Option.bind_some]
  exact h

/-- The records that an action other than a command adds to the log. -/
def Action.marks (s : Shell P) : Action → List Record
  | .checkpoint frames => s.checkpointRecords frames
  | _ => []

/-- The records that a line other than a command adds to the log: those of a checkpoint. -/
def marks (c : Console P) (x : Typed) : List Record :=
  match request x.line with
  | some (.ok .checkpoint) => c.shell.checkpointRecords x.written
  | _ => []

/-- A turn that leaves the data alone: the log has these records more, some records may have gone to
the log file, and that is all. -/
structure Looks (c c' : Console P) (added : List Record) : Prop where
  shell : c'.shell = c.shell.withLog c'.shell.db.lm
  log : c'.shell.db.lm.log = c.shell.db.lm.log ++ added
  sound : c.shell.db.lm.Sound → c'.shell.db.lm.Sound

omit [PageOps P] in
theorem Looks.of_shell_eq (h : c'.shell = c.shell) : c.Looks c' [] := by
  refine ⟨?_, ?_, fun hs => ?_⟩
  · rw [h]
    rfl
  · rw [h, List.append_nil]
  · rwa [h]

theorem looks_act {a : Action} (hno : ∀ cmd, a ≠ .command cmd) (h : c.act a = some c') :
    c.Looks c' (a.marks c.shell) := by
  unfold act at h
  split at h
  · cases h
  · cases a with
    | command cmd => exact absurd rfl (hno cmd)
    | writePages frames =>
      obtain rfl := Option.some.inj h
      refine ⟨rfl, ?_, fun hs => ?_⟩
      · exact (LogManager.enforceWal_log _ frames).trans (List.append_nil _).symm
      · exact hs.enforceWal frames
    | checkpoint frames =>
      obtain rfl := Option.some.inj h
      refine ⟨rfl, ?_, fun hs => ?_⟩
      · exact c.shell.checkpoint_log frames
      · exact Shell.checkpoint_sound hs frames
    | readLog =>
      obtain rfl := Option.some.inj h
      refine ⟨rfl, (List.append_nil _).symm, fun hs => ?_⟩
      show c.shell.db.lm.readLog.1.Sound
      rw [hs.readLog]
      exact hs
    | stop e =>
      obtain rfl := Option.some.inj h
      exact Looks.of_shell_eq rfl

omit [PageOps P] in
theorem marks_eq {x : Typed} {r : Request} {a : Action} (hr : request x.line = some (.ok r))
    (ha : r.action c.shell x = some a) : c.marks x = a.marks c.shell := by
  rw [marks, hr]
  cases r with
  | page pid =>
    rw [Request.action] at ha
    split at ha
    · cases ha
      rfl
    · cases ha
  | _ => cases ha <;> rfl

/-- **Lines and actions.** Lines get the shell exactly where the actions get it that can be typed.
A line that stands for none of the eight commands leaves the data alone; to the log it adds nothing,
or the two records of a checkpoint. -/
theorem lines_iff (c : Console P) : (∀ c', c.Reads c' ↔ c.Obeys c') ∧
    ∀ x c', c.read x = some c' →
      (∀ r cmd, request x.line = some (.ok r) → r.action c.shell x ≠ some (.command cmd)) →
      c.Looks c' (c.marks x) := by
  refine ⟨fun c' => ⟨?_, ?_⟩, fun x c' h hno => ?_⟩
  · exact Steps.simulated fun _ _ _ => obeys_read
  · exact Steps.simulated fun _ _ _ => reads_act
  · rw [read] at h
    split at h
    · cases h
    · split at h
      · rename_i r hr
        obtain ⟨a, ha, hact⟩ := Option.bind_eq_some_iff.mp h
        rw [marks_eq hr ha]
        exact looks_act (fun cmd hcmd => hno r cmd hr (ha.trans (congrArg some hcmd))) hact
      · rename_i hr
        cases h
        have hnone : c.marks x = [] := by
          rw [marks]
          split
          · rename_i hckpt
            exact absurd hckpt (hr .checkpoint)
          · rfl
        rw [hnone]
        exact Looks.of_shell_eq rfl

end Console

end PersistX
