import PersistX.Lib.Decimal
import PersistX.Shell.Commands

/-!
# PersistX — the command line

What `run` makes of a line: `tokenize` cuts it into words, `dispatch` looks at
the first one and the commands read their arguments from the others, before
they do anything. A `Request` is what has been read, a `Refusal` what is printed
instead.

A line is the bytes that `getline` gives, so there is no newline in it. A word
in quotes may hold spaces and may be empty; nothing stands for a quote inside
of it. `stoll`, `stoi` and `stoul` leave alone what follows the digits.

Main result:

* `tokenize_iff` — `tokenize` accepts every line, and gives a list of words
  exactly when the line is written in the grammar `Renders`.
-/

namespace PersistX

open Decimal

-- ---------------------------------------------------------------------------
-- Words
-- ---------------------------------------------------------------------------

/-- The loop of `tokenize`: spaces are passed over, then a word is read, in quotes or up to the
next space. Every iteration gets on by a byte, which the first argument counts. -/
def tokenizeLoop : Nat → Bytes → List Bytes
  | 0, _ => []
  | n + 1, line =>
    match line.dropWhile (· == 32) with
    | [] => []
    | c :: s =>
      if c = 34 then
        -- the closing quote is skipped, if there is one
        s.takeWhile (· != 34) :: tokenizeLoop n ((s.dropWhile (· != 34)).drop 1)
      else (c :: s).takeWhile (· != 32) :: tokenizeLoop n ((c :: s).dropWhile (· != 32))

def tokenize (line : Bytes) : List Bytes := tokenizeLoop line.length line

/-- `value += " "` between the words from the third one on. -/
def joinWords (words : List Bytes) : Bytes := List.intercalate [32] words

-- ---------------------------------------------------------------------------
-- Numbers
-- ---------------------------------------------------------------------------

/-- `std::stoll`; `none` is an exception. -/
def stoll (s : Bytes) : Option Int64 :=
  (readInt s).bind fun i => if -2 ^ 63 ≤ i ∧ i < 2 ^ 63 then some (Int64.ofInt i) else none

/-- `std::stoi`. -/
def stoi (s : Bytes) : Option Int32 :=
  (readInt s).bind fun i => if -2 ^ 31 ≤ i ∧ i < 2 ^ 31 then some (Int32.ofInt i) else none

/-- `static_cast<page_id_t>(std::stoul(..))`. A minus sign is taken; the number is then counted
back from 2^64. -/
def stoul (s : Bytes) : Option UInt32 :=
  (readInt s).bind fun i =>
    if i.natAbs < 2 ^ 64 then some (UInt32.ofNat (i % 2 ^ 32).toNat) else none

-- ---------------------------------------------------------------------------
-- Requests
-- ---------------------------------------------------------------------------

/-- A command with its arguments. -/
inductive Request where
  | put (key : Int64) (value : Bytes)
  | get (key : Int64)
  | del (key : Int64)
  | scan (beginKey endKey : Int64)
  | update (key : Int64) (value : Bytes)
  | begin
  | commit
  | abort
  | status
  | tree
  | buffer
  | wal (n : Int32)
  | page (pid : UInt32)
  | flush
  | checkpoint
  | crash
  | recover
  | fill (n : Int32)
  | bench (n : Int32)
  | help
  | clear
  | exit
  deriving DecidableEq

/-- What is printed when a line is no request. -/
inductive Refusal where
  | usage (text : String)
  | invalid (text : String)
  /-- `Unknown command: `, and the word. -/
  | unknown (cmd : Bytes)
  deriving DecidableEq

/-- Commands of a key and a value. -/
def readKeyValue (usage invalid : String) (make : Int64 → Bytes → Request) :
    List Bytes → Except Refusal Request
  | _ :: key :: v :: vs =>
    match stoll key with
    | some k => .ok (make k (joinWords (v :: vs)))
    | none => .error (.invalid invalid)
  | _ => .error (.usage usage)

/-- Commands of one number. -/
def readNumber {T : Type} (sto : Bytes → Option T) (usage invalid : String) (make : T → Request) :
    List Bytes → Except Refusal Request
  | _ :: arg :: _ =>
    match sto arg with
    | some n => .ok (make n)
    | none => .error (.invalid invalid)
  | _ => .error (.usage usage)

/-- The arguments of `cmd_put`. -/
def readPut : List Bytes → Except Refusal Request :=
  readKeyValue "Usage: put <key> <value>" "Invalid key (must be integer)" .put

/-- The arguments of `cmd_update`. -/
def readUpdate : List Bytes → Except Refusal Request :=
  readKeyValue "Usage: update <key> <value>" "Invalid key" .update

/-- The arguments of `cmd_get`. -/
def readGet : List Bytes → Except Refusal Request :=
  readNumber stoll "Usage: get <key>" "Invalid key" .get

/-- The arguments of `cmd_del`. -/
def readDel : List Bytes → Except Refusal Request :=
  readNumber stoll "Usage: del <key>" "Invalid key" .del

/-- The arguments of `cmd_fill`. -/
def readFill : List Bytes → Except Refusal Request :=
  readNumber stoi "Usage: fill <count>" "Invalid count" .fill

/-- The arguments of `cmd_bench`. -/
def readBench : List Bytes → Except Refusal Request :=
  readNumber stoi "Usage: bench <count>" "Invalid count" .bench

/-- The arguments of `cmd_page_cmd`. -/
def readPage : List Bytes → Except Refusal Request :=
  readNumber stoul "Usage: page <page_id>" "Invalid page ID" .page

/-- The arguments of `cmd_scan`. -/
def readScan : List Bytes → Except Refusal Request
  | _ :: beginKey :: endKey :: _ =>
    match stoll beginKey, stoll endKey with
    | some b, some e => .ok (.scan b e)
    | _, _ => .error (.invalid "Invalid keys")
  | _ => .error (.usage "Usage: scan <begin> <end>")

/-- The argument of `cmd_wal`: ten records, unless a number says otherwise. -/
def readWal : List Bytes → Request
  | _ :: arg :: _ => .wal ((stoi arg).getD 10)
  | _ => .wal 10

/-- The bytes of a command's name. -/
def ascii (text : String) : Bytes := text.toList.map Char.toUInt8

/-- `dispatch`, up to what the commands read. `tokens` is not empty. -/
def dispatch (tokens : List Bytes) : Except Refusal Request :=
  let cmd := tokens.headD []
  if cmd = ascii "put" then readPut tokens
  else if cmd = ascii "get" then readGet tokens
  else if cmd = ascii "del" then readDel tokens
  else if cmd = ascii "scan" then readScan tokens
  else if cmd = ascii "update" then readUpdate tokens
  else if cmd = ascii "begin" then .ok .begin
  else if cmd = ascii "commit" then .ok .commit
  else if cmd = ascii "abort" then .ok .abort
  else if cmd = ascii "status" then .ok .status
  else if cmd = ascii "tree" then .ok .tree
  else if cmd = ascii "buffer" then .ok .buffer
  else if cmd = ascii "wal" then .ok (readWal tokens)
  else if cmd = ascii "page" then readPage tokens
  else if cmd = ascii "flush" then .ok .flush
  else if cmd = ascii "checkpoint" then .ok .checkpoint
  else if cmd = ascii "crash" then .ok .crash
  else if cmd = ascii "recover" then .ok .recover
  else if cmd = ascii "fill" then readFill tokens
  else if cmd = ascii "bench" then readBench tokens
  else if cmd = ascii "help" then .ok .help
  else if cmd = ascii "clear" then .ok .clear
  else if cmd = ascii "exit" || cmd = ascii "quit" then .ok .exit
  else .error (.unknown cmd)

/-- What the loop of `run` makes of a line; `none` for one without words. -/
def request (line : Bytes) : Option (Except Refusal Request) :=
  match tokenize line with
  | [] => none
  | tokens => some (dispatch tokens)

-- ---------------------------------------------------------------------------
-- The words of a line
-- ---------------------------------------------------------------------------

/-- How a list of words is written. A word without quotes begins with none, and ends where a
space or the line does; quotes that are opened last need not be closed. -/
inductive Renders : List Bytes → Bytes → Prop where
  | nil : Renders [] []
  | space {words : List Bytes} {s : Bytes} : Renders words s → Renders words (32 :: s)
  | quoted {q : Bytes} {words : List Bytes} {s : Bytes} : 34 ∉ q → Renders words s →
    Renders (q :: words) (34 :: (q ++ 34 :: s))
  | unclosed {q : Bytes} : 34 ∉ q → Renders [q] (34 :: q)
  | word {w : Bytes} {words : List Bytes} {s : Bytes} : w ≠ [] → 32 ∉ w → w.head? ≠ some 34 →
    (∀ b, s.head? = some b → b = 32) → Renders words s → Renders (w :: words) (w ++ s)

variable {line s w : Bytes} {words : List Bytes} {n : Nat} {b : UInt8}

/-- Spaces may be put in front. -/
theorem Renders.spaces (h : Renders words (line.dropWhile (· == 32))) : Renders words line := by
  induction line with
  | nil => exact h
  | cons b line ih =>
    by_cases hb : b = 32
    · subst hb
      rw [List.dropWhile_cons_of_pos (by decide)] at h
      exact .space (ih h)
    · rwa [List.dropWhile_cons_of_neg (by simpa using hb)] at h

theorem not_mem_takeWhile_ne (l : Bytes) (b : UInt8) : b ∉ l.takeWhile (· != b) := by
  intro h
  have := List.mem_takeWhile_imp h
  simp at this

/-- Where a word in front of `b` ends. -/
theorem head_dropWhile_ne {l : Bytes} {b c : UInt8} (h : (l.dropWhile (· != b)).head? = some c) :
    c = b := by
  have := List.head?_dropWhile_not (· != b) l
  rw [h] at this
  simpa using this

/-- What the loop reads is written there. -/
theorem renders_tokenizeLoop (h : line.length ≤ n) : Renders (tokenizeLoop n line) line := by
  induction n generalizing line with
  | zero =>
    rw [List.eq_nil_of_length_eq_zero (Nat.le_zero.mp h)]
    exact .nil
  | succ n ih =>
    refine Renders.spaces ?_
    have hlen : (line.dropWhile (· == 32)).length ≤ n + 1 :=
      Nat.le_trans (List.dropWhile_suffix _).length_le h
    have hhead : ∀ c, (line.dropWhile (· == 32)).head? = some c → c ≠ 32 := by
      intro c hc
      have := List.head?_dropWhile_not (· == 32) line
      rw [hc] at this
      simpa using this
    rw [tokenizeLoop]
    generalize line.dropWhile (· == 32) = l at hlen hhead
    cases l with
    | nil => exact .nil
    | cons c s =>
      have hs : s.length ≤ n := Nat.le_of_succ_le_succ hlen
      have hc : c ≠ 32 := hhead c rfl
      by_cases hquote : c = 34
      · subst hquote
        simp only [if_pos]
        have hq : (34 : UInt8) ∉ s.takeWhile (· != 34) := not_mem_takeWhile_ne s 34
        have hsplit : s.takeWhile (· != 34) ++ s.dropWhile (· != 34) = s := List.takeWhile_append_dropWhile
        have hend : ∀ d, (s.dropWhile (· != 34)).head? = some d → d = 34 := fun d => head_dropWhile_ne
        have hrest : (s.dropWhile (· != 34)).length ≤ n :=
          Nat.le_trans (List.dropWhile_suffix _).length_le hs
        generalize s.takeWhile (· != 34) = q at hq hsplit
        generalize s.dropWhile (· != 34) = r at hsplit hend hrest
        cases r with
        | nil =>
          have hnil : tokenizeLoop n [] = [] := by
            cases n with
            | zero => rfl
            | succ n => rfl
          rw [List.append_nil] at hsplit
          rw [List.drop_nil, hnil, ← hsplit]
          exact .unclosed hq
        | cons d r =>
          rw [hend d rfl] at hsplit
          rw [List.drop_one, List.tail_cons, ← hsplit]
          exact .quoted hq (ih (Nat.le_trans (Nat.le_succ _) hrest))
      · simp only [if_neg hquote]
        have hword : (c :: s).takeWhile (· != 32) = c :: s.takeWhile (· != 32) :=
          List.takeWhile_cons_of_pos (by simpa using hc)
        have hdrop : (c :: s).dropWhile (· != 32) = s.dropWhile (· != 32) :=
          List.dropWhile_cons_of_pos (by simpa using hc)
        have hw : Renders ((c :: s).takeWhile (· != 32) :: tokenizeLoop n ((c :: s).dropWhile (· != 32)))
            ((c :: s).takeWhile (· != 32) ++ (c :: s).dropWhile (· != 32)) := by
          refine .word ?_ (not_mem_takeWhile_ne _ 32) ?_ (fun d => head_dropWhile_ne) (ih ?_)
          · rw [hword]
            exact List.cons_ne_nil _ _
          · rw [hword]
            exact fun h => hquote (Option.some.inj h)
          · rw [hdrop]
            exact Nat.le_trans (List.dropWhile_suffix _).length_le hs
        rwa [List.takeWhile_append_dropWhile] at hw

/-- What is written is read, whatever number of iterations there is to spare. -/
theorem tokenizeLoop_of_renders (h : Renders words line) (hn : line.length ≤ n) :
    tokenizeLoop n line = words := by
  induction h generalizing n with
  | nil =>
    cases n with
    | zero => rfl
    | succ n => rfl
  | space _ ih =>
    cases n with
    | zero => simp at hn
    | succ n =>
      rw [tokenizeLoop, List.dropWhile_cons_of_pos (by decide)]
      have := ih (n := n + 1) (Nat.le_trans (Nat.le_succ _) hn)
      rwa [tokenizeLoop] at this
  | @quoted q words s hq _ ih =>
    cases n with
    | zero => simp at hn
    | succ n =>
      have htake : (q ++ 34 :: s).takeWhile (· != 34) = q := by
        rw [List.takeWhile_append_of_pos (by grind), List.takeWhile_cons_of_neg (by decide),
          List.append_nil]
      have hdrop : (q ++ 34 :: s).dropWhile (· != 34) = 34 :: s := by
        rw [List.dropWhile_append_of_pos (by grind), List.dropWhile_cons_of_neg (by decide)]
      rw [tokenizeLoop, List.dropWhile_cons_of_neg (by decide)]
      simp only [if_pos, htake, hdrop, List.drop_one, List.tail_cons]
      rw [ih (by simp at hn; omega)]
  | @unclosed q hq =>
    cases n with
    | zero => simp at hn
    | succ n =>
      have htake : q.takeWhile (· != 34) = q := by
        rw [List.takeWhile_eq_self_iff]
        grind
      have hdrop : q.dropWhile (· != 34) = [] := by
        rw [List.dropWhile_eq_nil_iff]
        grind
      rw [tokenizeLoop, List.dropWhile_cons_of_neg (by decide)]
      simp only [if_pos, htake, hdrop, List.drop_nil]
      cases n with
      | zero => rfl
      | succ n => rfl
  | @word w words s hne hspace hhead hs _ ih =>
    obtain ⟨c, w, rfl⟩ := List.exists_cons_of_ne_nil hne
    cases n with
    | zero => simp at hn
    | succ n =>
      have hc : c ≠ 32 := fun h => hspace (h ▸ List.mem_cons_self)
      have hquote : c ≠ 34 := fun h => hhead (congrArg some h)
      have htake : (c :: w ++ s).takeWhile (· != 32) = c :: w := by
        rw [List.takeWhile_append_of_pos (by grind)]
        cases s with
        | nil => rw [List.takeWhile_nil, List.append_nil]
        | cons b s =>
          rw [hs b rfl, List.takeWhile_cons_of_neg (by decide), List.append_nil]
      have hdrop : (c :: w ++ s).dropWhile (· != 32) = s := by
        rw [List.dropWhile_append_of_pos (by grind)]
        cases s with
        | nil => rfl
        | cons b s => rw [hs b rfl, List.dropWhile_cons_of_neg (by decide)]
      rw [List.cons_append] at htake hdrop
      rw [tokenizeLoop, List.cons_append, List.dropWhile_cons_of_neg (by simpa using hc)]
      simp only [if_neg hquote, htake, hdrop]
      rw [ih (by simp at hn; omega)]

theorem renders_tokenize (line : Bytes) : Renders (tokenize line) line :=
  renders_tokenizeLoop (Nat.le_refl _)

theorem tokenize_of_renders (h : Renders words line) : tokenize line = words :=
  tokenizeLoop_of_renders h (Nat.le_refl _)

/-- The words of a line are those it is written with. -/
theorem tokenize_iff (line : Bytes) (words : List Bytes) :
    tokenize line = words ↔ Renders words line := by
  constructor
  · rintro rfl
    exact renders_tokenize line
  · exact tokenize_of_renders

/-- Quotes count at the beginning of a word only. -/
example : tokenize (ascii " put 5  \"a b\"c d\"e \"\"") =
    [ascii "put", ascii "5", ascii "a b", ascii "c", ascii "d\"e", []] := by decide

end PersistX
