import ConiferOS.Keyboard.Keyboard

/-! # Overflow of a keyboard buffer

A push onto a full ring overwrites the oldest character and leaves the head where it is, so the
newest character is the next one to be delivered and older ones follow it. The order is lost
when such an older character is delivered; it is not lost if enough further characters overwrite
the old ones before.
-/

namespace ConiferOS.Keyboard

open Lib Print

inductive Call where
  | push (c : Byte)
  | pop

def Call.op : Call → Op
  | .push c => .key c
  | .pop => .getKey

def KeyRun.call (r : KeyRun) (call : Call) : KeyRun := r.step call.op

/-- What was returned is some of what was pushed, in the same order. -/
def InOrder (process : Word) (start : KeyRun) (calls : List Call) : Prop :=
  ((Run.final KeyRun.call start calls).returned process).Sublist
    ((Run.final KeyRun.call start calls).pushed process)

/-- The same call, perhaps with another character. -/
inductive SameCall : Call → Call → Prop
  | push {c d : Byte} (silent : c = 0 ↔ d = 0) : SameCall (.push c) (.push d)
  | pop : SameCall .pop .pop

/-- How many characters were pushed, how many of them before the present round, how many of
    these are still in the ring, and how many of the present round are. -/
structure Counts where
  pushed : Nat
  older : Nat
  stale : Nat
  fresh : Nat

/-- A push overwrites a stale character if there is one, and starts a new round on a ring full
    of fresh ones. -/
def Counts.step (n : Counts) : Call → Counts
  | .push c =>
      if c = 0 then n
      else if 0 < n.stale then ⟨n.pushed + 1, n.older, n.stale - 1, n.fresh + 1⟩
      else if n.fresh < keyboardBufferSize then ⟨n.pushed + 1, n.older, 0, n.fresh + 1⟩
      else ⟨n.pushed + 1, n.pushed, n.fresh - 1, 1⟩
  | .pop => { n with fresh := n.fresh - 1 }

/-- A get-key call does not come to a stale character. -/
def Counts.Safe (n : Counts) (call : Call) : Prop := call = .pop → n.fresh = 0 → n.stale = 0

/-! ## The two rounds -/

/-- The fresh characters and behind them the stale ones, with what was pushed and returned:
    `gone` was pushed before the stale ones, and `first` are those of it that were returned;
    `newer` was pushed after them and returned. -/
structure Rounds (keyboardBuffer : KeyboardBuffer) (gone stale first newer fresh : List Byte) : Prop where
  ring : Ring keyboardBufferSize 0 keyboardBuffer.buffer keyboardBuffer.head
    ((keyboardBuffer.head + (fresh ++ stale).length) % keyboardBufferSize) (fresh ++ stale)
  tail : keyboardBuffer.tail = (keyboardBuffer.head + fresh.length) % keyboardBufferSize
  nonzero : ∀ c ∈ fresh ++ stale, c ≠ 0
  order : first.Sublist gone
  round : stale ≠ [] → newer ++ fresh ≠ []

namespace Rounds

variable {keyboardBuffer : KeyboardBuffer} {gone stale first newer fresh : List Byte} {c : Byte}

/-- The buffer after a push. -/
def pushedOn (keyboardBuffer : KeyboardBuffer) (c : Byte) : KeyboardBuffer :=
  ⟨Function.update keyboardBuffer.buffer keyboardBuffer.tail c, keyboardBuffer.head,
    (keyboardBuffer.tail + 1) % keyboardBufferSize⟩

theorem push_stale {x : Byte} (rounds : Rounds keyboardBuffer gone (x :: stale) first newer fresh)
    (nonzero : c ≠ 0) :
    Rounds (pushedOn keyboardBuffer c) (gone ++ [x]) stale first newer (fresh ++ [c]) where
  ring := by
    have set := rounds.ring.set (i := fresh.length) (by simp) c
    rw [← rounds.tail] at set
    simpa [pushedOn] using set
  tail := by simp [pushedOn, rounds.tail, Nat.add_assoc]
  nonzero := nonzero_of_subset rounds.nonzero nonzero (by grind)
  order := rounds.order.trans (List.sublist_append_left _ _)
  round := by simp

theorem push_blank (rounds : Rounds keyboardBuffer gone [] first newer fresh)
    (room : fresh.length < keyboardBufferSize) (nonzero : c ≠ 0) :
    Rounds (pushedOn keyboardBuffer c) gone [] first newer (fresh ++ [c]) where
  ring := by
    have ring := rounds.ring
    simp only [List.append_nil] at ring
    simpa [pushedOn, rounds.tail, Nat.add_assoc] using ring.push room c
  tail := by simp [pushedOn, rounds.tail, Nat.add_assoc]
  nonzero := nonzero_of_subset rounds.nonzero nonzero (by grind)
  order := rounds.order
  round := by simp

theorem push_full {x : Byte} (rounds : Rounds keyboardBuffer gone [] first newer (x :: fresh))
    (full : (x :: fresh).length = keyboardBufferSize) (nonzero : c ≠ 0) :
    Rounds (pushedOn keyboardBuffer c) (gone ++ newer ++ [x]) fresh (first ++ newer) [] [c] where
  ring := by
    have set := rounds.ring.set (i := 0) (by simp) c
    have start : keyboardBuffer.tail = (keyboardBuffer.head + 0) % keyboardBufferSize := by
      simp [rounds.tail, full]
    rw [← start] at set
    simpa [pushedOn, Nat.add_comm] using set
  tail := by simp [pushedOn, rounds.tail, full]
  nonzero := nonzero_of_subset rounds.nonzero nonzero (by grind)
  order := by
    rw [List.append_assoc]
    exact rounds.order.append (List.sublist_append_left _ _)
  round := by simp

theorem pop_fresh {x : Byte} (rounds : Rounds keyboardBuffer gone stale first newer (x :: fresh)) :
    Rounds (incrementHead
        { keyboardBuffer with buffer := Function.update keyboardBuffer.buffer keyboardBuffer.head 0 })
      gone stale first (newer ++ [x]) fresh where
  ring := by
    have pop := rounds.ring.pop
    simpa [incrementHead, Nat.add_assoc, Nat.add_comm, Nat.add_left_comm] using pop
  tail := by simp [incrementHead, rounds.tail, Nat.add_assoc, Nat.add_comm]
  nonzero := fun d member => rounds.nonzero d (List.mem_cons_of_mem x member)
  order := rounds.order
  round := by simp

end Rounds

/-! ## Runs -/

/-- The run has come to two rounds of these lengths. -/
structure Follows (process : Word) (r : KeyRun) (n : Counts) : Prop where
  focus : r.state.Focus process
  rounds : ∃ gone stale first newer fresh,
    Rounds (r.state.buffers process) gone stale first newer fresh ∧
      r.pushed process = gone ++ stale ++ (newer ++ fresh) ∧
      r.returned process = first ++ newer ∧
      n = ⟨(gone ++ stale ++ (newer ++ fresh)).length, (gone ++ stale).length, stale.length,
        fresh.length⟩

theorem Follows.inOrder {process : Word} {r : KeyRun} {n : Counts} (follows : Follows process r n) :
    (r.returned process).Sublist (r.pushed process) := by
  obtain ⟨-, gone, stale, first, newer, fresh, rounds, pushed, returned, -⟩ := follows
  rw [pushed, returned]
  exact (rounds.order.trans (List.sublist_append_left _ _)).append (List.sublist_append_left _ _)

theorem call_push_buffers {process : Word} {r : KeyRun} (focus : r.state.Focus process) {c : Byte}
    (nonzero : c ≠ 0) :
    (r.call (.push c)).state.buffers process = Rounds.pushedOn (r.state.buffers process) c := by
  exact focus.push nonzero

theorem call_push_pushed {process : Word} {r : KeyRun} (focus : r.state.Focus process) {c : Byte}
    (nonzero : c ≠ 0) : (r.call (.push c)).pushed process = r.pushed process ++ [c] := by
  simp only [KeyRun.call, Call.op, KeyRun.step, focus.current, append_self nonzero]

theorem call_push_zero (r : KeyRun) : r.call (.push 0) = r := by
  simp only [KeyRun.call, Call.op, KeyRun.step, keyboardPush_zero, append_zero]

theorem call_sched (r : KeyRun) (call : Call) : (r.call call).state.sched = r.state.sched := by
  cases call with
  | push c => exact keyboardPush_sched r.state c
  | pop => exact keyboardPop_sched r.state

theorem call_pop_none {process : Word} {r : KeyRun} (focus : r.state.Focus process)
    (blank : (r.state.buffers process).buffer (r.state.buffers process).head = 0) : r.call .pop = r := by
  simp only [KeyRun.call, Call.op, KeyRun.step, focus.pop_none blank, focus.pop_value, blank, append_zero]

theorem call_pop_pushed (r : KeyRun) : (r.call .pop).pushed = r.pushed := rfl

theorem call_pop_returned {process : Word} {r : KeyRun} (focus : r.state.Focus process) {c : Byte}
    (nonzero : c ≠ 0) (front : (r.state.buffers process).buffer (r.state.buffers process).head = c) :
    (r.call .pop).returned process = r.returned process ++ [c] := by
  simp only [KeyRun.call, Call.op, KeyRun.step, focus.pop_value, front, focus.running, append_self nonzero]

theorem Follows.push {process : Word} {r : KeyRun} {n : Counts} (follows : Follows process r n)
    (c : Byte) : Follows process (r.call (.push c)) (n.step (.push c)) := by
  by_cases silent : c = 0
  · rw [silent, call_push_zero]
    exact follows
  obtain ⟨focus, gone, stale, first, newer, fresh, rounds, pushed, returned, rfl⟩ := follows
  refine ⟨focus.of_sched (call_sched r _), ?_⟩
  rw [call_push_buffers focus silent, call_push_pushed focus silent, pushed]
  rw [Counts.step, if_neg silent]
  cases stale with
  | cons x stale =>
      refine ⟨_, _, _, _, _, rounds.push_stale silent, by simp, returned, ?_⟩
      simp [Nat.add_assoc, Nat.add_comm, Nat.add_left_comm]
  | nil =>
      by_cases room : fresh.length < keyboardBufferSize
      · refine ⟨_, _, _, _, _, rounds.push_blank room silent, by simp, returned, ?_⟩
        simp [room, Nat.add_assoc]
      · have full : fresh.length = keyboardBufferSize := by
          have fits := rounds.ring.fits
          rw [List.append_nil] at fits
          omega
        cases fresh with
        | nil => simp [keyboardBufferSize] at full
        | cons x fresh =>
            refine ⟨_, _, _, _, _, rounds.push_full full silent, by simp, ?_, ?_⟩
            · exact returned.trans (List.append_nil _).symm
            · rw [List.length_cons] at room
              simp [room, Nat.add_assoc]

theorem Follows.pop {process : Word} {r : KeyRun} {n : Counts} (follows : Follows process r n)
    (safe : n.Safe .pop) : Follows process (r.call .pop) (n.step .pop) := by
  obtain ⟨focus, gone, stale, first, newer, fresh, rounds, pushed, returned, rfl⟩ := follows
  refine ⟨focus.of_sched (call_sched r _), ?_⟩
  cases fresh with
  | nil =>
      have empty : stale = [] := List.length_eq_zero_iff.mp (safe rfl rfl)
      subst empty
      rw [call_pop_none focus rounds.ring.front_of_empty]
      exact ⟨_, _, _, _, _, rounds, pushed, returned, rfl⟩
  | cons x fresh =>
      have front := rounds.ring.front
      have nonzero := rounds.nonzero x (by simp)
      have buffers : (r.call .pop).state.buffers process = _ := focus.pop_some (by rwa [front])
      rw [buffers, call_pop_returned focus nonzero front, returned]
      refine ⟨_, _, _, _, _, rounds.pop_fresh, ?_, by simp, by simp [Counts.step]⟩
      exact pushed.trans (by simp)

theorem Follows.call {process : Word} {r : KeyRun} {n : Counts} (follows : Follows process r n)
    {call : Call} (safe : n.Safe call) : Follows process (r.call call) (n.step call) := by
  cases call with
  | push c => exact follows.push c
  | pop => exact follows.pop safe

theorem follows_started {process : Word} {sched : Task.SchedState} {terminal : Terminal}
    (focus : (started sched terminal).state.Focus process) :
    Follows process (started sched terminal) ⟨0, 0, 0, 0⟩ := by
  refine ⟨focus, [], [], [], [], [], ⟨?_, rfl, by simp, by simp, by simp⟩, rfl, rfl, rfl⟩
  exact Ring.empty _ (by decide) 0

theorem follows_final {process : Word} {sched : Task.SchedState} {terminal : Terminal}
    (focus : (started sched terminal).state.Focus process) {calls : List Call}
    (safe : Run.Always Counts.step Counts.Safe ⟨0, 0, 0, 0⟩ calls) :
    Follows process (Run.final KeyRun.call (started sched terminal) calls)
      (Run.final Counts.step ⟨0, 0, 0, 0⟩ calls) := by
  refine Run.Always.final_related (Follows process) ?_ (follows_started focus) safe
  intro r n call follows safe
  exact follows.call safe

/-! ## Other characters -/

theorem SameCall.step {call call' : Call} (same : SameCall call call') (n : Counts) :
    n.step call = n.step call' ∧ (n.Safe call ↔ n.Safe call') := by
  cases same with
  | push silent => simp only [Counts.step, Counts.Safe, silent, reduceCtorEq, false_imp_iff, and_self]
  | pop => exact ⟨rfl, Iff.rfl⟩

theorem sameCalls_run {calls calls' : List Call} (same : List.Forall₂ SameCall calls calls') (n : Counts) :
    Run.final Counts.step n calls = Run.final Counts.step n calls' ∧
      (Run.Always Counts.step Counts.Safe n calls ↔ Run.Always Counts.step Counts.Safe n calls') := by
  induction same generalizing n with
  | nil => exact ⟨rfl, Iff.rfl⟩
  | @cons call call' calls calls' first _ ih =>
      obtain ⟨step, safe⟩ := first.step n
      obtain ⟨final, always⟩ := ih (n.step call)
      simp only [Run.final_cons, Run.Always, ← step, final, safe, always, and_self]

/-- The calls with the characters of `f` in turn. -/
def label (f : Nat → Byte) : (i : Nat) → List Call → List Call
  | _, [] => []
  | i, .pop :: calls => .pop :: label f i calls
  | i, .push c :: calls =>
      if c = 0 then .push 0 :: label f i calls else .push (f i) :: label f (i + 1) calls

theorem label_same {f : Nat → Byte} (nonzero : ∀ i, f i ≠ 0) (i : Nat) (calls : List Call) :
    List.Forall₂ SameCall calls (label f i calls) := by
  induction calls generalizing i with
  | nil => exact .nil
  | cons call calls ih =>
      cases call with
      | pop => exact .cons .pop (ih i)
      | push c =>
          rw [label]
          split
          case isTrue silent => exact .cons (.push (by rw [silent])) (ih i)
          case isFalse loud => exact .cons (.push (iff_of_false loud (nonzero i))) (ih (i + 1))

theorem label_append (f : Nat → Byte) (i : Nat) (calls rest : List Call) :
    ∃ j, label f i (calls ++ rest) = label f i calls ++ label f j rest := by
  induction calls generalizing i with
  | nil => exact ⟨i, rfl⟩
  | cons call calls ih =>
      cases call with
      | pop =>
          obtain ⟨j, split⟩ := ih i
          exact ⟨j, congrArg (Call.pop :: ·) split⟩
      | push c =>
          rw [List.cons_append, label, label]
          split
          case isTrue =>
              obtain ⟨j, split⟩ := ih i
              exact ⟨j, congrArg (Call.push 0 :: ·) split⟩
          case isFalse =>
              obtain ⟨j, split⟩ := ih (i + 1)
              exact ⟨j, congrArg (Call.push (f i) :: ·) split⟩

/-- The characters pushed are those of `f` in turn. -/
theorem label_pushed {process : Word} {f : Nat → Byte} (nonzero : ∀ i, f i ≠ 0) {r : KeyRun}
    (focus : r.state.Focus process) (i : Nat) (calls : List Call) :
    ∃ count, (Run.final KeyRun.call r (label f i calls)).pushed process =
      r.pushed process ++ (List.range' i count).map f := by
  induction calls generalizing r i with
  | nil => exact ⟨0, by simp [label]⟩
  | cons call calls ih =>
      cases call with
      | pop => exact ih (focus.of_sched (call_sched r .pop)) i
      | push c =>
          rw [label]
          split
          case isTrue =>
              rw [Run.final_cons, call_push_zero]
              exact ih focus i
          case isFalse =>
              obtain ⟨count, pushed⟩ := ih (focus.of_sched (call_sched r (.push (f i)))) (i + 1)
              refine ⟨count + 1, ?_⟩
              rw [Run.final_cons, pushed, call_push_pushed focus (nonzero i), List.range'_succ,
                List.map_cons, List.append_assoc, List.singleton_append]

theorem call_returned_grows (process : Word) (r : KeyRun) (call : Call) :
    r.returned process <+: (r.call call).returned process := by
  cases call with
  | push c => exact List.prefix_rfl
  | pop =>
      simp only [KeyRun.call, Call.op, KeyRun.step, append]
      split
      case isTrue => exact List.prefix_rfl
      case isFalse =>
          by_cases same : process = r.state.running
          · rw [same, Function.update_self]
            exact List.prefix_append _ _
          · rw [Function.update_of_ne same]

theorem final_returned_grows (process : Word) (r : KeyRun) (calls : List Call) :
    r.returned process <+: (Run.final KeyRun.call r calls).returned process := by
  induction calls generalizing r with
  | nil => exact List.prefix_rfl
  | cons call calls ih => exact (call_returned_grows process r call).trans (ih _)

/-- A first letter for what was pushed before a round, and a second one from there on. -/
def twoLetters (older i : Nat) : Byte := if i < older then 1 else 2

theorem twoLetters_nonzero (older i : Nat) : twoLetters older i ≠ 0 := by
  unfold twoLetters
  split <;> decide

/-- Behind a second letter there are only second letters. -/
theorem twoLetters_pairwise (older i count : Nat) :
    ((List.range' i count).map (twoLetters older)).Pairwise fun a b => a = 2 → b = 2 := by
  rw [List.pairwise_map]
  have ascending : (List.range' i count).Pairwise (· < ·) := List.pairwise_lt_range' 1
  refine ascending.imp ?_
  intro i j before second
  have late : ¬ i < older := by
    intro early
    rw [twoLetters, if_pos early] at second
    exact absurd second (by decide)
  exact if_neg (by omega)

/-- A stale character is delivered behind one that was pushed later. -/
theorem Follows.stale_pop {process : Word} {r : KeyRun} {n : Counts} (follows : Follows process r n)
    (forbidden : ¬ n.Safe .pop) {count : Nat}
    (pushed : r.pushed process = (List.range' 0 count).map (twoLetters n.older)) :
    ¬ ((r.call .pop).returned process).Pairwise fun a b => a = 2 → b = 2 := by
  obtain ⟨focus, gone, stale, first, newer, fresh, rounds, split, returned, rfl⟩ := follows
  obtain ⟨rfl, left⟩ : fresh = [] ∧ stale ≠ [] := by
    simpa [Counts.Safe, List.length_eq_zero_iff] using forbidden
  obtain ⟨x, stale, rfl⟩ := List.exists_cons_of_ne_nil left
  obtain ⟨y, newer, rfl⟩ : ∃ y rest, newer = y :: rest :=
    List.exists_cons_of_ne_nil (by simpa using rounds.round left)
  rw [call_pop_returned focus (rounds.nonzero x (by simp)) rounds.ring.front, returned]
  rw [split] at pushed
  have letter : ∀ i c, (gone ++ x :: stale ++ (y :: newer ++ []))[i]? = some c →
      c = twoLetters (gone ++ x :: stale).length i := by
    intro i c found
    rw [pushed, List.getElem?_map, Option.map_eq_some_iff] at found
    obtain ⟨j, place, rfl⟩ := found
    obtain ⟨inside, rfl⟩ := List.getElem?_eq_some_iff.mp place
    simp
  have early : x = 1 := by
    rw [letter gone.length x (by simp), twoLetters, if_pos (by simp)]
  have late : y = 2 := by
    rw [letter (gone ++ x :: stale).length y ?_, twoLetters, if_neg (Nat.lt_irrefl _)]
    rw [List.getElem?_append_right le_rfl]
    simp
  intro sorted
  have behind := (List.pairwise_append.mp sorted).2.2 y (by simp) x (by simp)
  rw [early] at behind
  exact absurd (behind late) (by decide)

/-- When a get-key call comes to a stale character, the two letters are out of order. -/
theorem not_inOrder {process : Word} {sched : Task.SchedState} {terminal : Terminal}
    (focus : (started sched terminal).state.Focus process) {before : List Call}
    (safe : Run.Always Counts.step Counts.Safe ⟨0, 0, 0, 0⟩ before)
    (forbidden : ¬ (Run.final Counts.step ⟨0, 0, 0, 0⟩ before).Safe .pop) (after : List Call) :
    ¬ InOrder process (started sched terminal)
      (label (twoLetters (Run.final Counts.step ⟨0, 0, 0, 0⟩ before).older) 0
        (before ++ .pop :: after)) := by
  set n := Run.final Counts.step ⟨0, 0, 0, 0⟩ before with n_def
  have nonzero := twoLetters_nonzero n.older
  obtain ⟨final, always⟩ := sameCalls_run (label_same nonzero 0 before) ⟨0, 0, 0, 0⟩
  have follows := follows_final focus (always.mp safe)
  rw [← final, ← n_def] at follows
  obtain ⟨count, pushed⟩ := label_pushed nonzero focus 0 before
  have unsorted := follows.stale_pop forbidden pushed
  intro ordered
  obtain ⟨total, all⟩ := label_pushed nonzero focus 0 (before ++ .pop :: after)
  rw [InOrder, all] at ordered
  have sorted := (twoLetters_pairwise n.older 0 total).sublist ordered
  obtain ⟨j, split⟩ := label_append (twoLetters n.older) 0 before (.pop :: after)
  have whole : Run.final KeyRun.call (started sched terminal)
      (label (twoLetters n.older) 0 (before ++ .pop :: after)) =
      Run.final KeyRun.call
        ((Run.final KeyRun.call (started sched terminal) (label (twoLetters n.older) 0 before)).call .pop)
        (label (twoLetters n.older) j after) := by
    rw [split, Run.final_append]
    rfl
  rw [whole] at sorted
  exact unsorted (sorted.sublist (final_returned_grows process _ _).sublist)

/-- The order is kept, whatever the characters are, exactly when no get-key call comes to a
    stale one. -/
theorem overflow_keeps_order_iff {process : Word} {sched : Task.SchedState} {terminal : Terminal}
    (focus : (started sched terminal).state.Focus process) (calls : List Call) :
    (∀ calls', List.Forall₂ SameCall calls calls' → InOrder process (started sched terminal) calls') ↔
      Run.Always Counts.step Counts.Safe ⟨0, 0, 0, 0⟩ calls := by
  constructor
  · intro ordered
    by_contra not
    obtain ⟨before, call, after, rfl, safe, forbidden⟩ := Run.Always.exists_first not
    cases call with
    | push c => exact forbidden (by simp [Counts.Safe])
    | pop =>
        refine not_inOrder focus safe forbidden after (ordered _ (label_same ?_ 0 _))
        exact twoLetters_nonzero _
  · intro safe calls' same
    exact (follows_final focus ((sameCalls_run same _).2.mp safe)).inOrder

/-- Two keys and a get-key call between them. -/
theorem overflow_keeps_order_two :
    InOrder 0x2000 (started twoTasks booted) [.push 0x61, .pop, .push 0x62] := by
  refine (overflow_keeps_order_iff twoTasks_focus [.push 0x61, .pop, .push 0x62]).mpr ?_ _ ?_
  · simp [Run.Always, Counts.step, Counts.Safe]
  · exact .cons (.push Iff.rfl) (.cons .pop (.cons (.push Iff.rfl) .nil))

theorem final_pushes {process : Word} {r : KeyRun} (focus : r.state.Focus process) {cs : List Byte}
    (nonzero : ∀ c ∈ cs, c ≠ 0) :
    (Run.final KeyRun.call r (cs.map .push)).pushed process = r.pushed process ++ cs ∧
      (Run.final KeyRun.call r (cs.map .push)).returned process = r.returned process := by
  induction cs generalizing r with
  | nil => simp
  | cons c cs ih =>
      obtain ⟨first, rest⟩ := List.forall_mem_cons.mp nonzero
      obtain ⟨pushed, returned⟩ := ih (focus.of_sched (call_sched r (.push c))) rest
      rw [List.map_cons, Run.final_cons, pushed, returned, call_push_pushed focus first]
      exact ⟨by simp, rfl⟩

theorem counts_fill {n : Nat} (fits : n ≤ keyboardBufferSize) :
    Run.final Counts.step ⟨0, 0, 0, 0⟩ (List.replicate n (.push 0x61)) = ⟨n, 0, 0, n⟩ := by
  induction n with
  | zero => rfl
  | succ n ih =>
      rw [List.replicate_succ', Run.final_append, ih (by omega)]
      have room : n < keyboardBufferSize := fits
      simp [Counts.step, room]

theorem pushes_safe (n : Counts) (cs : List Byte) :
    Run.Always Counts.step Counts.Safe n (cs.map .push) := by
  induction cs generalizing n with
  | nil => exact trivial
  | cons c cs ih => exact ⟨by simp [Counts.Safe], ih _⟩

/-- The newest character and then the second oldest. -/
theorem Follows.overfull_pops {process : Word} {r : KeyRun} {a b : Byte}
    (follows : Follows process r ⟨keyboardBufferSize + 1, keyboardBufferSize, keyboardBufferSize - 1, 1⟩)
    (pushed : r.pushed process = List.replicate keyboardBufferSize a ++ [b])
    (returned : r.returned process = []) :
    ((r.call .pop).call .pop).returned process = [b, a] := by
  obtain ⟨focus, gone, stale, first, newer, fresh, rounds, split, -, lengths⟩ := follows
  obtain ⟨-, old, stales, one⟩ := Counts.mk.injEq .. ▸ lengths
  obtain ⟨same, new⟩ : gone ++ stale = List.replicate keyboardBufferSize a ∧ newer ++ fresh = [b] :=
    List.append_inj (split.symm.trans pushed) (by rw [← old, List.length_replicate])
  obtain ⟨x, rfl⟩ := List.length_eq_one_iff.mp one.symm
  obtain ⟨rfl, rfl⟩ : newer = [] ∧ x = b := by simpa [List.append_eq_singleton_iff] using new
  cases stale with
  | nil => exact absurd stales (by decide)
  | cons y stale =>
      obtain rfl : y = a := List.eq_of_mem_replicate (by rw [← same]; simp)
      have front := rounds.ring.front
      have nonzero := rounds.nonzero x (by simp)
      have buffers : (r.call .pop).state.buffers process = _ := focus.pop_some (by rwa [front])
      have next := rounds.pop_fresh
      rw [← buffers] at next
      have again := focus.of_sched (call_sched r .pop)
      rw [call_pop_returned again (next.nonzero y (by simp)) next.ring.front,
        call_pop_returned focus nonzero front, returned]
      rfl

/-- As many characters as the ring has cells, and one more. -/
def overfull : List Byte := List.replicate keyboardBufferSize 0x61 ++ [0x62]

theorem overfull_nonzero : ∀ c ∈ overfull, c ≠ 0 := by
  intro c member
  rcases List.mem_append.mp member with old | new
  · rw [List.eq_of_mem_replicate old]
    decide
  · rw [List.mem_singleton.mp new]
    decide

theorem overfull_sorted : overfull.Pairwise fun c d => c = 0x62 → d = 0x62 := by
  refine List.pairwise_append.mpr ⟨List.pairwise_replicate.mpr (.inr (by decide)), by simp, ?_⟩
  intro c old d new _
  exact List.mem_singleton.mp new

theorem overfull_counts :
    Run.final Counts.step ⟨0, 0, 0, 0⟩ (overfull.map .push) =
      ⟨keyboardBufferSize + 1, keyboardBufferSize, keyboardBufferSize - 1, 1⟩ := by
  rw [overfull, List.map_append, List.map_replicate, Run.final_append, counts_fill le_rfl]
  rfl

/-- The newest character is delivered before an older one. -/
theorem overflow_reorders :
    (Run.final KeyRun.call (started twoTasks booted) (overfull.map .push ++ [.pop, .pop])).returned 0x2000 =
        [0x62, 0x61] ∧
      ¬ InOrder 0x2000 (started twoTasks booted) (overfull.map .push ++ [.pop, .pop]) := by
  have follows := follows_final twoTasks_focus (pushes_safe ⟨0, 0, 0, 0⟩ overfull)
  rw [overfull_counts] at follows
  obtain ⟨pushed, returned⟩ := final_pushes twoTasks_focus overfull_nonzero
  have delivered := follows.overfull_pops pushed returned
  have log : (Run.final KeyRun.call (started twoTasks booted) (overfull.map .push)).pushed 0x2000 =
      overfull := pushed
  rw [InOrder, Run.final_append, Run.final_cons, Run.final_cons, Run.final_nil, delivered,
    call_pop_pushed, call_pop_pushed, log]
  refine ⟨rfl, fun kept => ?_⟩
  exact absurd (overfull_sorted.sublist kept) (by decide)

end ConiferOS.Keyboard
