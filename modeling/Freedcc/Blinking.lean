import Freedcc.Listening

/-! The lamp and the clear. `IO_read` lights a lamp for every line it accepts, which takes
longer than a period of TIMER0: whenever a line is carried out, the packets before it
have been sent. So no interrupt finds a packet while the cache is being cleared, and the
clear might as well be one step. -/
namespace Freedcc
open Dcc

namespace Scheduler
variable {s : Scheduler}

theorem tick_count (s : Scheduler) : (step s .tick).1.txQueue.count = s.txQueue.count - 1 := by
  rw [← Ring.contents_length, ← Ring.contents_length]
  rcases s.ticked with ⟨tx, _, pending, _, _, _, _⟩ | ⟨tx, _, pending, _, _, _, _⟩ |
    ⟨_, pending, _, same, _⟩ | ⟨pending, _, turned, _⟩
  · rw [pending]
    rfl
  · rw [pending]
    rfl
  · rw [same, pending]
    rfl
  · rw [turned]
    change s.txQueue.contents.length = s.txQueue.contents.length - 1
    rw [pending]
    rfl

/-- A tick sends the packet that has waited longest. -/
theorem tick_first (queue : s.txQueue.contents = tx :: rest) :
    (step s .tick).2.filterMap sent = [tx] := by
  rcases s.ticked with ⟨other, _, pending, _, _, _, events⟩ | ⟨other, _, pending, _, _, _, events⟩ |
    ⟨_, pending, _, _, _⟩ | ⟨pending, _, _, _⟩
  · rw [queue] at pending
    obtain ⟨rfl, -⟩ := List.cons.inj pending
    rw [events]
    simp [sent]
  · rw [queue] at pending
    obtain ⟨rfl, -⟩ := List.cons.inj pending
    rw [events]
    simp [sent]
  · rw [queue] at pending
    contradiction
  · rw [queue] at pending
    contradiction

theorem clear_sends (s : Scheduler) : (step s .cacheClear).2.filterMap sent = [] := by
  simp only [step, Cache.clear_trace, List.nil_append, List.filterMap_map]
  exact List.filterMap_none _

theorem tick_idle (queue : s.txQueue.count = 0)
    (ring : s.cache.addresses.count = 0) :
    step s .tick = (s, [.signalSend (s.stopPacket.getD s.idlePacket)]) := by
  have empty : s.txQueue.contents = [] := (Ring.contents_eq_nil _).mpr queue
  apply Prod.ext
  · rcases s.ticked with ⟨tx, _, pending, _, _, _, _⟩ | ⟨tx, _, pending, _, _, _, _⟩ |
      ⟨_, _, _, same, _⟩ | ⟨_, _, turned, _⟩
    · rw [empty] at pending
      contradiction
    · rw [empty] at pending
      contradiction
    · exact same
    · rw [turned, Cache.getNextPacket_empty ring]
  · rcases s.ticked with ⟨tx, _, pending, _, _, _, _⟩ | ⟨tx, _, pending, _, _, _, _⟩ |
      ⟨held, _, stored, _, events⟩ | ⟨_, stored, _, events⟩
    · rw [empty] at pending
      contradiction
    · rw [empty] at pending
      contradiction
    · rw [events, stored]
      rfl
    · rw [events, stored, Cache.getNextPacket_empty ring]

end Scheduler

namespace Clearing
variable {c : Clearing}

/-- The slots from `done` on emptied. -/
def swept (done : Nat) (packets : Hash Int PacketRef cacheAddrSize) : Hash Int PacketRef cacheAddrSize :=
  (((List.finRange cacheAddrSize).drop done).foldl (Hash.resetEntry Cache.callbacks) (packets, [])).1

def cleared (c : Clearing) : Scheduler :=
  { c.scheduler with
    cache := { c.scheduler.cache with packets := swept c.done c.scheduler.cache.packets } }

theorem cleared_of_done (done : cacheAddrSize ≤ c.done) : c.cleared = c.scheduler := by
  have nothing : (List.finRange cacheAddrSize).drop c.done = [] := by
    apply List.drop_eq_nil_of_le
    rw [List.length_finRange]
    exact done
  rw [cleared, swept, nothing]
  rfl

theorem cleared_start (s : Scheduler) : (start s).cleared = (Scheduler.step s .cacheClear).1 := rfl

/-- The loop does not look at what has been destroyed. -/
theorem resetEntries_packets (slots : List (Fin cacheAddrSize))
    (packets : Hash Int PacketRef cacheAddrSize) (trace : Trace) :
    (slots.foldl (Hash.resetEntry Cache.callbacks) (packets, trace)).1 =
      (slots.foldl (Hash.resetEntry Cache.callbacks) (packets, [])).1 := by
  induction slots generalizing packets trace with
  | nil => rfl
  | cons slot slots ih =>
    rw [List.foldl_cons, List.foldl_cons]
    simp only [Hash.resetEntry, Cache.hashEntryDestroy_eq]
    exact (ih _ _).trans (ih _ _).symm

/-- An iteration of the loop is nothing new to the whole of it. -/
theorem cleared_resetEntry (c : Clearing) : (c.step .resetEntry).1.cleared = c.cleared := by
  by_cases inside : c.done < cacheAddrSize
  · have next : (List.finRange cacheAddrSize).drop c.done =
        ⟨c.done, inside⟩ :: (List.finRange cacheAddrSize).drop (c.done + 1) := by
      rw [List.drop_eq_getElem_cons (by rw [List.length_finRange]; exact inside), List.getElem_finRange]
      rfl
    rw [step, dif_pos inside, cleared, cleared, swept, swept, next, List.foldl_cons]
    exact congrArg (fun packets => ({ c.scheduler with
      cache := { c.scheduler.cache with packets } } : Scheduler)) (resetEntries_packets _ _ _).symm
  · rw [step, dif_neg inside]

/-- An iteration is about the table only. -/
theorem resetEntry_keeps (c : Clearing) : ∃ packets done, c.done ≤ done ∧
    (c.done ≤ cacheAddrSize → done ≤ cacheAddrSize) ∧ (c.step .resetEntry).1 =
      { scheduler := { c.scheduler with cache := { c.scheduler.cache with packets } }, done } := by
  by_cases inside : c.done < cacheAddrSize
  · rw [step, dif_pos inside]
    exact ⟨_, _, Nat.le_succ _, fun _ => inside, rfl⟩
  · rw [step, dif_neg inside]
    exact ⟨_, _, Nat.le_refl _, id, rfl⟩

/-- Nothing is waiting, and none of the locos has a turn. -/
structure Still (c : Clearing) : Prop where
  queue : c.scheduler.txQueue.count = 0
  ring : c.scheduler.cache.addresses.count = 0

theorem Still.tick (still : Still c) : (c.step .tick).1 = c := by
  rw [step, Scheduler.tick_idle still.queue still.ring]

/-- During a clear an interrupt that finds nothing might as well come after it. -/
theorem cleared_tick (calm : c.done < cacheAddrSize → Still c) :
    Scheduler.step c.cleared .tick = ((c.step .tick).1.cleared, (c.step .tick).2) := by
  by_cases busy : c.done < cacheAddrSize
  · have still := calm busy
    have same : Scheduler.step c.cleared .tick = _ := Scheduler.tick_idle still.queue still.ring
    have sends : (c.step .tick).2 =
        [.signalSend (c.scheduler.stopPacket.getD c.scheduler.idlePacket)] :=
      congrArg Prod.snd (Scheduler.tick_idle still.queue still.ring)
    rw [still.tick, same, sends]
    rfl
  · have done := Nat.le_of_not_lt busy
    rw [cleared_of_done done]
    exact Prod.ext (cleared_of_done (c := (c.step .tick).1) done).symm rfl

end Clearing

namespace CommandStation
open PartialProgram

/-- What an accepted line asks of the scheduler, a `cache clear` being one call. -/
def handed : Option Result → List Scheduler.Op
  | some ⟨.raw, .packet ref⟩ => [.addPacket ref]
  | some ⟨.dcc, .packet ref⟩ => [.addPacket ref]
  | some ⟨.sys, .cmd ⟨.cacheClear, _⟩⟩ => [.cacheClear]
  | _ => []

theorem handed_ignored {result : Option Result} (ignored : result.bind Result.outcome = none) :
    handed result = [] := by
  unfold handed
  split
  · cases ignored
  · cases ignored
  · cases ignored
  · rfl

theorem handed_other {cmd : SysCmd} (other : cmd.type ≠ .cacheClear) :
    handed (some ⟨.sys, .cmd cmd⟩) = [] := by
  obtain ⟨type, args⟩ := cmd
  cases type with
  | cacheClear => exact absurd rfl other
  | status | help | cacheShow => rfl

def calls (s : CommandStation) : Op → List Scheduler.Op
  | .read null _ =>
    if s.clearing.done < cacheAddrSize then []
    else
      match Desk.read null s.desk with
      | .ok (.accepted result, _) => handed result
      | _ => []
  | .timer0 _ => [.tick]
  | _ => []

/-- A line is accepted, and the lamp lit for it. -/
def accepts (s : CommandStation) : Op → Bool
  | .read null _ =>
    if s.clearing.done < cacheAddrSize then false
    else
      match Desk.read null s.desk with
      | .ok (.accepted _, _) => true
      | _ => false
  | _ => false

/-- The program, and whether TIMER0 has come since a line was accepted. -/
structure Blinking where
  station : CommandStation
  ticked : Bool

namespace Blinking

def step (platform : Platform) (b : Blinking) (op : Op) : Blinking × List Effect :=
  let next := CommandStation.step platform b.station op
  let ticked :=
    match op with
    | .timer0 _ => true
    | _ => b.ticked && !b.station.accepts op
  ({ station := next.1, ticked }, next.2)

/-- The lamp is lit long enough. -/
def Lasts (b : Blinking) (op : Op) : Prop := b.station.accepts op = true → b.ticked = true

instance (b : Blinking) : DecidablePred b.Lasts := fun _ => inferInstanceAs (Decidable (_ → _))

def start (memory : Scheduler.Memory) (buf : Vector Char 50) (wire : List Rx) : Blinking :=
  { station := .start memory buf wire, ticked := true }

/-- The lamp goes on with a line that is accepted, and TIMER0 ends it. -/
theorem ticked_before (platform : Platform) {b : Blinking} {op : Op} (other : ∀ late, op ≠ .timer0 late)
    (ticked : (step platform b op).1.ticked = true) :
    b.ticked = true ∧ b.station.accepts op = false := by
  cases op with
  | timer0 late => exact absurd rfl (other late)
  | receive | read | timer1 | resetEntry =>
    obtain ⟨before, none⟩ := Bool.and_eq_true_iff.mp ticked
    exact ⟨before, by simpa using none⟩

theorem run_station (platform : Platform) (b : Blinking) (ops : List Op) :
    (Run.final (step platform) b ops).station = Run.final (CommandStation.step platform) b.station ops ∧
      Run.log (step platform) b ops = Run.log (CommandStation.step platform) b.station ops := by
  induction ops generalizing b with
  | nil => exact ⟨rfl, rfl⟩
  | cons op rest ih =>
    obtain ⟨final, log⟩ := ih (step platform b op).1
    exact ⟨final, congrArg ((step platform b op).2 ++ ·) log⟩

end Blinking

variable {platform : Platform} {s : CommandStation} {b : Blinking}

/-- What carrying out a line does to the scheduler. -/
inductive Hands (c : Clearing) : Clearing → List Scheduler.Op → Prop where
  | nothing : Hands c c []
  | packet (ref : PacketRef) : Hands c { c with scheduler := c.scheduler.addPacket ref } [.addPacket ref]
  | clear : Hands c (.start c.scheduler) [.cacheClear]

variable (platform) in
theorem answer_hands (memFree : BitVec 16) (result : Option Result) (s : CommandStation) :
    Hands s.clearing (s.answer platform memFree (.accepted result)).1.clearing (handed result) := by
  have obeyed := obeyed platform memFree (.accepted result) s
  generalize s.answer platform memFree (.accepted result) = next at obeyed ⊢
  cases obeyed with
  | packet type ref kind => rcases kind with rfl | rfl <;> exact .packet ref
  | mute _ ignored =>
    rw [handed_ignored ignored]
    exact .nothing
  | cmd cmd =>
    have called := called platform memFree cmd
      ((s.account Sys.parseOkIncrement).account Sys.processSysCmd)
    generalize CommandStation.call platform memFree cmd _ = next at called ⊢
    cases called with
    | prints text other =>
      rw [handed_other other]
      exact .nothing
    | clears => exact .clear
    | mute => exact .nothing

variable (platform) in
theorem read_hands (null : Bool) (memFree : BitVec 16) (s : CommandStation) :
    Hands s.clearing (s.step platform (.read null memFree)).1.clearing
      (s.calls (.read null memFree)) := by
  have step := step_read platform memFree null s
  generalize s.step platform (.read null memFree) = next at step ⊢
  cases step with
  | busy waits =>
    rw [calls, if_pos waits]
    exact .nothing
  | stuck free read =>
    rw [calls, if_neg free, read]
    exact .nothing
  | @answers reading desk free read =>
    rw [calls, if_neg free, read]
    cases reading with
    | accepted result => exact answer_hands platform memFree result { s with desk }
    | nothing | blank | rejected => exact .nothing

/-- Only with a line that is accepted, when no clear is under way, is the scheduler called
by the main program. -/
theorem accepts_of_calls {op : Op} (called : s.calls op ≠ []) (other : ∀ late, op ≠ .timer0 late) :
    s.accepts op = true ∧ cacheAddrSize ≤ s.clearing.done := by
  cases op with
  | timer0 late => exact absurd rfl (other late)
  | receive | timer1 | resetEntry => exact absurd rfl called
  | read null memFree =>
    by_cases busy : s.clearing.done < cacheAddrSize
    · simp only [calls, if_pos busy] at called
      exact absurd rfl called
    · simp only [calls, accepts, if_neg busy] at called ⊢
      refine ⟨?_, Nat.le_of_not_lt busy⟩
      split at called
      · rfl
      · exact absurd rfl called

/-- No call of `IO_read` sends anything. -/
theorem read_sends (null : Bool) (memFree : BitVec 16) (s : CommandStation) :
    (s.step platform (.read null memFree)).2.filterMap Effect.sent = [] := by
  apply List.filterMap_eq_nil_iff.mpr
  intro effect member
  have step := step_read platform memFree null s
  generalize s.step platform (.read null memFree) = next at step member
  cases step with
  | busy | stuck => cases member
  | @answers reading desk free read =>
    have held : Held (fun _ => True) { s with desk } := fun _ _ => trivial
    obtain ⟨-, -, shown⟩ := held.answer platform memFree reading fun _ _ _ _ => trivial
    obtain ⟨ref, rfl⟩ := shown effect member
    rfl

variable (platform) in
theorem timer1_sends (pind : Bool) (s : CommandStation) :
    (s.step platform (.timer1 pind)).2.filterMap Effect.sent = [] := by
  apply List.filterMap_eq_nil_iff.mpr
  intro effect member
  obtain ⟨value, -, rfl⟩ := List.mem_map.mp member
  rfl

/-- A line is carried out only when no packet is waiting. -/
structure Calm (b : Blinking) : Prop where
  within : b.station.clearing.done ≤ cacheAddrSize
  queue : b.station.clearing.scheduler.txQueue.count ≤ 1
  lamp : b.ticked = true → b.station.clearing.scheduler.txQueue.count = 0
  busy : b.station.clearing.done < cacheAddrSize → b.station.clearing.Still

theorem calm_start (memory : Scheduler.Memory) (buf : Vector Char 50) (wire : List Rx) :
    Calm (.start memory buf wire) :=
  ⟨Nat.le_refl _, Nat.zero_le _, fun _ => rfl, fun busy => absurd busy (Nat.lt_irrefl _)⟩

structure Reduces (platform : Platform) (b : Blinking) (op : Op) : Prop where
  calm : Calm (b.step platform op).1
  cleared : Run.final Scheduler.step b.station.clearing.cleared (b.station.calls op) =
    (b.step platform op).1.station.clearing.cleared
  sends : (b.step platform op).2.filterMap Effect.sent =
    (Run.log Scheduler.step b.station.clearing.cleared (b.station.calls op)).filterMap Scheduler.sent

theorem Calm.tick (calm : Calm b) (late : Bool) : Reduces platform b (.timer0 late) := by
  have cleared := Clearing.cleared_tick calm.busy
  have count : (b.step platform (.timer0 late)).1.station.clearing.scheduler.txQueue.count =
      b.station.clearing.scheduler.txQueue.count - 1 := Scheduler.tick_count _
  have queue := calm.queue
  refine ⟨⟨calm.within, ?_, fun _ => ?_, fun busy => ?_⟩, congrArg Prod.fst cleared, ?_⟩
  · omega
  · omega
  · have still := calm.busy busy
    change (b.station.clearing.step .tick).1.Still
    rw [still.tick]
    exact still
  · have calls : Run.log Scheduler.step b.station.clearing.cleared
        (b.station.calls (.timer0 late)) = (b.station.clearing.step .tick).2 := by
      apply (List.append_nil _).trans
      rw [cleared]
    rw [calls]
    exact modulateAll_sent late b.station.signal _

variable (platform) in
/-- The end of a clear is told, and no more. -/
theorem resetEntry_step (s : CommandStation) :
    (s.step platform .resetEntry).1.clearing = (s.clearing.step .resetEntry).1 ∧
      (s.step platform .resetEntry).2.filterMap Effect.sent = [] := by
  have silent := (unheard_events _ (resetEntry_sends s.clearing)).2.1
  have sweeps := step_resetEntry platform s
  generalize s.step platform .resetEntry = next at sweeps ⊢
  cases sweeps with
  | more | last => exact ⟨rfl, silent⟩

theorem Calm.resetEntry (calm : Calm b) : Reduces platform b .resetEntry := by
  obtain ⟨clearing, silent⟩ := resetEntry_step platform b.station
  have clearing : (b.step platform .resetEntry).1.station.clearing =
      (b.station.clearing.step .resetEntry).1 := clearing
  obtain ⟨packets, done, further, within, same⟩ := b.station.clearing.resetEntry_keeps
  refine ⟨⟨?_, ?_, fun ticked => ?_, fun busy => ?_⟩, ?_, silent⟩
  · rw [clearing, same]
    exact within calm.within
  · rw [clearing, same]
    exact calm.queue
  · rw [clearing, same]
    exact calm.lamp (Blinking.ticked_before platform (by simp) ticked).1
  · rw [clearing, same] at busy ⊢
    have still := calm.busy (Nat.lt_of_le_of_lt further busy)
    exact ⟨still.queue, still.ring⟩
  · rw [clearing]
    exact (Clearing.cleared_resetEntry _).symm

theorem Calm.read (calm : Calm b) (null : Bool) (memFree : BitVec 16)
    (lasts : b.Lasts (.read null memFree)) : Reduces platform b (.read null memFree) := by
  have silent : (b.step platform (.read null memFree)).2.filterMap Effect.sent = [] :=
    read_sends null memFree b.station
  have hands : Hands b.station.clearing (b.step platform (.read null memFree)).1.station.clearing
      (b.station.calls (.read null memFree)) := read_hands platform null memFree b.station
  have quiet (some : b.station.calls (.read null memFree) ≠ []) :
      b.station.accepts (.read null memFree) = true ∧ cacheAddrSize ≤ b.station.clearing.done :=
    accepts_of_calls some (by simp)
  generalize after : (b.step platform (.read null memFree)).1.station.clearing = next at hands
  generalize called : b.station.calls (.read null memFree) = ops at hands quiet
  have lit (some : ops ≠ []) : b.station.clearing.scheduler.txQueue.count = 0 ∧
      ((b.step platform (.read null memFree)).1.ticked = true → False) ∧
      cacheAddrSize ≤ b.station.clearing.done := by
    obtain ⟨takes, done⟩ := quiet some
    refine ⟨calm.lamp (lasts takes), fun ticked => ?_, done⟩
    rw [(Blinking.ticked_before platform (by simp) ticked).2] at takes
    contradiction
  cases hands with
  | nothing =>
    refine ⟨⟨?_, ?_, fun ticked => ?_, ?_⟩, ?_, ?_⟩
    · rw [after]
      exact calm.within
    · rw [after]
      exact calm.queue
    · rw [after]
      exact calm.lamp (Blinking.ticked_before platform (by simp) ticked).1
    · rw [after]
      exact calm.busy
    · rw [after, called]
      rfl
    · rw [called]
      exact silent
  | packet ref =>
    obtain ⟨empty, dark, done⟩ := lit (by simp)
    refine ⟨⟨?_, ?_, fun ticked => (dark ticked).elim, fun busy => ?_⟩, ?_, ?_⟩
    · rw [after]
      exact calm.within
    · rw [after]
      exact Nat.le_of_eq (congrArg (· + 1) empty)
    · rw [after] at busy
      exact absurd busy (Nat.not_lt.mpr done)
    · rw [after, called]
      rfl
    · rw [called]
      exact silent
  | clear =>
    obtain ⟨empty, dark, done⟩ := lit (by simp)
    refine ⟨⟨?_, ?_, fun ticked => (dark ticked).elim, fun _ => ?_⟩, ?_, ?_⟩
    · rw [after]
      exact Nat.zero_le _
    · rw [after]
      exact calm.queue
    · rw [after]
      exact ⟨empty, rfl⟩
    · rw [after, called, Clearing.cleared_start, Clearing.cleared_of_done done]
      rfl
    · rw [called, silent, Run.log, Run.log, List.append_nil, Scheduler.clear_sends]

theorem Calm.step (calm : Calm b) (op : Op) (lasts : b.Lasts op) : Reduces platform b op := by
  cases op with
  | receive =>
    refine ⟨⟨calm.within, calm.queue, fun ticked => ?_, calm.busy⟩, rfl, rfl⟩
    exact calm.lamp (Blinking.ticked_before platform (by simp) ticked).1
  | read null memFree => exact calm.read null memFree lasts
  | timer0 late => exact calm.tick late
  | timer1 pind =>
    refine ⟨⟨calm.within, calm.queue, fun ticked => ?_, calm.busy⟩, rfl, timer1_sends platform pind b.station⟩
    exact calm.lamp (Blinking.ticked_before platform (by simp) ticked).1
  | resetEntry => exact calm.resetEntry

theorem calls_short (s : CommandStation) (op : Op) : (s.calls op).length ≤ 1 := by
  have short (result : Option Result) : (handed result).length ≤ 1 := by
    unfold handed
    split <;> simp
  cases op with
  | read null memFree =>
    simp only [calls]
    split
    · exact Nat.zero_le _
    · split
      · exact short _
      · exact Nat.zero_le _
  | timer0 late => exact Nat.le_refl _
  | receive | timer1 | resetEntry => exact Nat.zero_le _

theorem Blinking.translated_calls (platform : Platform) (b : Blinking) (ops : List Op) :
    Run.translated (Blinking.step platform) (fun b => b.station.calls) b ops =
      Run.translated (CommandStation.step platform) calls b.station ops := by
  induction ops generalizing b with
  | nil => rfl
  | cons op rest ih => exact congrArg (b.station.calls op ++ ·) (ih (b.step platform op).1)

def Beside (b : Blinking) (t : Scheduler) : Prop := Calm b ∧ b.station.clearing.cleared = t

theorem Beside.step {t : Scheduler} (beside : Beside b t) (op : Op) (lasts : b.Lasts op) :
    Beside (b.step platform op).1 (Run.final Scheduler.step t (b.station.calls op)) ∧
      (b.step platform op).2.filterMap Effect.sent =
        (Run.log Scheduler.step t (b.station.calls op)).filterMap Scheduler.sent := by
  obtain ⟨calm, rfl⟩ := beside
  have reduces : Reduces platform b op := calm.step op lasts
  exact ⟨⟨reduces.calm, reduces.cleared.symm⟩, reduces.sends⟩

/-- Whatever the host sends: where the lamp lasts for a period of TIMER0, what is sent to the
track is what the scheduler sends when a `cache clear` is one step that nothing interrupts,
and no packet ever waits behind another. -/
theorem clear_atomic (platform : Platform) (memory : Scheduler.Memory) (buf : Vector Char 50)
    (wire : List Rx) (ops : List Op)
    (lasts : Run.Along (Blinking.step platform) Blinking.Lasts (.start memory buf wire) ops) :
    let calls := Run.translated (step platform) calls (start memory buf wire) ops
    (Run.log (step platform) (start memory buf wire) ops).filterMap Effect.sent =
        (Run.log Scheduler.step (.moduleInit memory) calls).filterMap Scheduler.sent ∧
      Run.Always Scheduler.step (·.txQueue.count ≤ 1) (.moduleInit memory) calls ∧
      (cacheAddrSize ≤ (Run.final (step platform) (start memory buf wire) ops).clearing.done →
        (Run.final (step platform) (start memory buf wire) ops).clearing.scheduler =
          Run.final Scheduler.step (.moduleInit memory) calls) := by
  have start : Beside (.start memory buf wire) (.moduleInit memory) :=
    ⟨calm_start memory buf wire, Clearing.cleared_of_done (Nat.le_refl _)⟩
  obtain ⟨final, log⟩ := Blinking.run_station platform (.start memory buf wire) ops
  obtain ⟨⟨calm, cleared⟩, sends⟩ := lasts.translated Effect.sent Scheduler.sent
    (fun b => b.station.calls) (fun b t op lasts beside => beside.step op lasts) start
  have always := lasts.translated_always (R := Beside) (Q := (·.txQueue.count ≤ 1))
    (fun b => b.station.calls) (fun b => calls_short b.station)
    (fun _ _ beside => beside.2 ▸ beside.1.queue)
    (fun _ _ op lasts beside => (beside.step op lasts).1) start
  rw [Blinking.translated_calls] at cleared sends always
  rw [log] at sends
  rw [final] at cleared
  refine ⟨sends, always, fun done => ?_⟩
  exact (Clearing.cleared_of_done done).symm.trans cleared

/-- A loco is driven and forgotten; TIMER0 comes in the middle of that. -/
def forgetting : List Op :=
  [.receive, .read false 0, .timer0 false, .receive, .read false 0, .resetEntry, .timer0 false] ++
    List.replicate 19 .resetEntry ++ [.timer0 true]

theorem clear_atomic_forgetting :
    (Run.log (step quietPlatform) (typing "fw ad 3 sp 5\rcache clear\r") forgetting).filterMap
        Effect.sent =
      [⟨1, ⟨[0xFF, 0xF0, 0x19, 0x90, 0xCF]⟩⟩, Scheduler.idle, Scheduler.idle] := by
  obtain ⟨sends, -⟩ := clear_atomic quietPlatform .zero (.replicate 50 ' ')
    ("fw ad 3 sp 5\rcache clear\r".toList.map fun c => { c, frameError := false, overrun := false })
    forgetting (by decide +kernel)
  exact sends.trans (by decide +kernel)

/-! What becomes of a packet. -/

def Op.ticks : Op → Bool
  | .timer0 _ => true
  | _ => false

def Silent (s : CommandStation) (op : Op) : Prop :=
  ∀ call ∈ s.calls op, call = .tick ∨ call = .cacheClear

instance (s : CommandStation) : DecidablePred s.Silent :=
  fun _ => inferInstanceAs (Decidable (∀ _ ∈ _, _))

/-- The packet of a line is all that waits when the line has been carried out. -/
theorem Calm.hands {null : Bool} {memFree : BitVec 16} (calm : Calm b)
    (lasts : b.Lasts (.read null memFree))
    (given : b.station.calls (.read null memFree) = [.addPacket ref]) :
    (b.step platform (.read null memFree)).1.station.clearing.scheduler.txQueue.contents = [ref] ∧
      (b.step platform (.read null memFree)).1.ticked = false := by
  have hands : Hands b.station.clearing (b.step platform (.read null memFree)).1.station.clearing
      (b.station.calls (.read null memFree)) := read_hands platform null memFree b.station
  have some : b.station.calls (.read null memFree) ≠ [] := by simp [given]
  obtain ⟨takes, -⟩ := accepts_of_calls some (by simp)
  have empty := calm.lamp (lasts takes)
  constructor
  · rw [given] at hands
    generalize (b.step platform (.read null memFree)).1.station.clearing = next at hands
    cases hands with
    | packet ref =>
      have drained := (Ring.contents_eq_nil _).mpr empty
      have pushed : (b.station.clearing.scheduler.addPacket ref).txQueue.contents =
          b.station.clearing.scheduler.txQueue.contents ++ [ref] :=
        Ring.contents_push _ _ (by rw [empty]; decide)
      rw [drained] at pushed
      exact pushed
  · apply Bool.eq_false_iff.mpr
    intro ticked
    rw [(Blinking.ticked_before platform (by simp) ticked).2] at takes
    contradiction

end CommandStation

/-- The stop is all that waits; or it is held, and nothing waits. -/
inductive Scheduler.Halts (ref : PacketRef) (s : Scheduler) : Prop where
  | waiting (queue : s.txQueue.contents = [ref])
  | holding (queue : s.txQueue.contents = []) (stop : s.stopPacket = some ref)

theorem Scheduler.Halts.tick {s : Scheduler} (halts : s.Halts ref)
    (stops : isBroadcastStop ref.packet = true) :
    (step s .tick).1.Halts ref ∧ (step s .tick).2.filterMap sent = [ref] := by
  have one {tx : PacketRef} {rest : List PacketRef} (queue : s.txQueue.contents = tx :: rest) :
      tx = ref ∧ rest = [] := by
    cases halts with
    | waiting waits =>
      rw [waits] at queue
      obtain ⟨rfl, rfl⟩ := List.cons.inj queue
      exact ⟨rfl, rfl⟩
    | holding empty =>
      rw [empty] at queue
      contradiction
  have held (queue : s.txQueue.contents = []) : s.stopPacket = some ref := by
    cases halts with
    | waiting waits =>
      rw [queue] at waits
      contradiction
    | holding _ stop => exact stop
  rcases s.ticked with ⟨tx, _, queue, _, stored, _, events⟩ | ⟨tx, _, queue, moves, _, _, _⟩ |
    ⟨stop, queue, stored, same, events⟩ | ⟨queue, stored, _, _⟩
  · obtain ⟨rfl, empty⟩ := one queue
    refine ⟨.holding empty stored, ?_⟩
    rw [events]
    simp [sent]
  · obtain ⟨rfl, -⟩ := one queue
    rw [stops] at moves
    contradiction
  · have here := held queue
    rw [stored] at here
    obtain rfl := Option.some.inj here
    rw [events, same]
    exact ⟨.holding queue stored, rfl⟩
  · rw [held queue] at stored
    contradiction

namespace CommandStation
variable {platform : Platform} {s : CommandStation} {b : Blinking}

/-- As long as no packet is handed over, every tick sends the stop, and only ticks send. -/
theorem halts_step (halts : s.clearing.scheduler.Halts ref) (stops : isBroadcastStop ref.packet = true)
    (op : Op) (silent : s.Silent op) :
    (s.step platform op).1.clearing.scheduler.Halts ref ∧
      (s.step platform op).2.filterMap Effect.sent = List.replicate op.ticks.toNat ref := by
  cases op with
  | receive => exact ⟨halts, rfl⟩
  | timer1 pind => exact ⟨halts, timer1_sends platform pind s⟩
  | timer0 late =>
    obtain ⟨next, sends⟩ := halts.tick stops
    exact ⟨next, (modulateAll_sent late s.signal _).trans sends⟩
  | resetEntry =>
    obtain ⟨clearing, quiet⟩ := resetEntry_step platform s
    obtain ⟨packets, done, -, -, same⟩ := s.clearing.resetEntry_keeps
    refine ⟨?_, quiet⟩
    rw [clearing, same]
    cases halts with
    | waiting queue => exact .waiting queue
    | holding queue stop => exact .holding queue stop
  | read null memFree =>
    refine ⟨?_, read_sends null memFree s⟩
    have hands := read_hands platform null memFree s
    generalize (s.step platform (.read null memFree)).1.clearing = next at hands ⊢
    generalize called : s.calls (.read null memFree) = ops at hands
    cases hands with
    | nothing => exact halts
    | packet other =>
      rw [Silent, called] at silent
      rcases silent _ (List.mem_singleton_self _) with tick | clear
      · contradiction
      · contradiction
    | clear =>
      cases halts with
      | waiting queue => exact .waiting queue
      | holding queue stop => exact .holding queue stop

theorem halts_run (ops : List Op) (halts : s.clearing.scheduler.Halts ref)
    (stops : isBroadcastStop ref.packet = true) (silent : Run.Along (step platform) Silent s ops) :
    (Run.log (step platform) s ops).filterMap Effect.sent = List.replicate (ops.countP Op.ticks) ref := by
  induction ops generalizing s with
  | nil => rfl
  | cons op rest ih =>
    obtain ⟨next, sends⟩ := halts_step halts stops op silent.1
    rw [Run.log, List.filterMap_append, sends, ih next silent.2, List.countP_cons, Nat.add_comm,
      List.replicate_add]
    cases op.ticks <;> rfl

variable (platform) in
/-- Until TIMER0 comes, no other line is accepted, and the packet stays where it is. -/
theorem waits_step (waits : b.station.clearing.scheduler.txQueue.contents = [ref])
    (lit : b.ticked = false) (op : Op) (between : op.ticks = false) (lasts : b.Lasts op) :
    (b.step platform op).1.station.clearing.scheduler.txQueue.contents = [ref] ∧
      (b.step platform op).1.ticked = false ∧ (b.step platform op).2.filterMap Effect.sent = [] := by
  have none : b.station.accepts op = false := by
    apply Bool.eq_false_iff.mpr
    intro takes
    rw [lasts takes] at lit
    contradiction
  cases op with
  | timer0 late => contradiction
  | receive => exact ⟨waits, congrArg (· && true) lit, rfl⟩
  | timer1 pind => exact ⟨waits, congrArg (· && true) lit, timer1_sends platform pind b.station⟩
  | resetEntry =>
    obtain ⟨clearing, quiet⟩ := resetEntry_step platform b.station
    obtain ⟨packets, done, -, -, same⟩ := b.station.clearing.resetEntry_keeps
    refine ⟨?_, congrArg (· && true) lit, quiet⟩
    change (b.station.step platform .resetEntry).1.clearing.scheduler.txQueue.contents = _
    rw [clearing, same]
    exact waits
  | read null memFree =>
    refine ⟨?_, ?_, read_sends null memFree b.station⟩
    · have hands := read_hands platform null memFree b.station
      have quiet : b.station.calls (.read null memFree) = [] := by
        by_contra called
        rw [(accepts_of_calls called (by simp)).1] at none
        contradiction
      rw [quiet] at hands
      change (b.station.step platform (.read null memFree)).1.clearing.scheduler.txQueue.contents = _
      generalize (b.station.step platform (.read null memFree)).1.clearing = next at hands ⊢
      cases hands
      exact waits
    · change (b.ticked && _) = false
      rw [lit]
      rfl

theorem waits_run (ops : List Op) (waits : b.station.clearing.scheduler.txQueue.contents = [ref])
    (lit : b.ticked = false) (between : ∀ op ∈ ops, op.ticks = false)
    (lasts : Run.Along (Blinking.step platform) Blinking.Lasts b ops) (late : Bool) :
    (Run.log (Blinking.step platform) b (ops ++ [.timer0 late])).filterMap Effect.sent = [ref] := by
  induction ops generalizing b with
  | nil =>
    rw [List.nil_append, Run.log, Run.log, List.append_nil]
    apply (modulateAll_sent late b.station.signal _).trans
    exact Scheduler.tick_first waits
  | cons op rest ih =>
    obtain ⟨next, still, quiet⟩ := waits_step platform waits lit op
      (between op List.mem_cons_self) lasts.1
    rw [List.cons_append, Run.log, List.filterMap_append, quiet]
    exact ih next still (fun op member => between op (List.mem_cons_of_mem _ member)) lasts.2

section Orders
variable (platform : Platform) (memory : Scheduler.Memory) (buf : Vector Char 50) (wire : List Rx)
  (before after : List Op) (null : Bool) (memFree : BitVec 16) (ref : PacketRef)
  (given : (Run.final (step platform) (start memory buf wire) before).calls (.read null memFree) =
    [.addPacket ref])
include given

/-- A line has given a packet. -/
theorem run_hands (lasts : Run.Along (Blinking.step platform) Blinking.Lasts (.start memory buf wire)
      (before ++ [.read null memFree])) :
    let b := Run.final (Blinking.step platform) (.start memory buf wire) (before ++ [.read null memFree])
    b.station.clearing.scheduler.txQueue.contents = [ref] ∧ b.ticked = false := by
  obtain ⟨earlier, last⟩ := Run.along_append.mp lasts
  obtain ⟨station, -⟩ := Blinking.run_station platform (.start memory buf wire) before
  have calm : Calm (Run.final (Blinking.step platform) (.start memory buf wire) before) :=
    earlier.invariant (fun b op lasts calm => (calm.step op lasts).calm) (calm_start memory buf wire)
  have given' : (Run.final (Blinking.step platform) (.start memory buf wire) before).station.calls
      (.read null memFree) = [.addPacket ref] := by
    rw [station]
    exact given
  rw [Run.final_append]
  exact calm.hands last.1 given'

/-- A packet is the next that is sent, whatever comes before the next tick. -/
theorem packet_sent_next (late : Bool) (between : ∀ op ∈ after, op.ticks = false)
    (lasts : Run.Along (Blinking.step platform) Blinking.Lasts (.start memory buf wire)
      (before ++ .read null memFree :: after)) :
    (Run.log (step platform)
      (Run.final (step platform) (start memory buf wire) (before ++ [.read null memFree]))
        (after ++ [.timer0 late])).filterMap Effect.sent = [ref] := by
  rw [← List.singleton_append, ← List.append_assoc] at lasts
  obtain ⟨earlier, later⟩ := Run.along_append.mp lasts
  obtain ⟨queue, lit⟩ := run_hands platform memory buf wire before null memFree ref given earlier
  have sends := waits_run after queue lit between later late
  obtain ⟨station, -⟩ := Blinking.run_station platform (.start memory buf wire)
    (before ++ [.read null memFree])
  rw [(Blinking.run_station platform _ _).2, station] at sends
  exact sends

/-- Once a stop for every loco has been read, it is all that is sent to the track, however
many locos are driven, until a line gives another packet. -/
theorem stop_line_holds
    (lasts : Run.Along (Blinking.step platform) Blinking.Lasts (.start memory buf wire)
      (before ++ [.read null memFree]))
    (stops : isBroadcastStop ref.packet = true)
    (silent : Run.Along (step platform) Silent
      (Run.final (step platform) (start memory buf wire) (before ++ [.read null memFree])) after) :
    (Run.log (step platform)
      (Run.final (step platform) (start memory buf wire) (before ++ [.read null memFree])) after).filterMap
        Effect.sent = List.replicate (after.countP Op.ticks) ref := by
  obtain ⟨queue, -⟩ := run_hands platform memory buf wire before null memFree ref given lasts
  obtain ⟨station, -⟩ := Blinking.run_station platform (.start memory buf wire)
    (before ++ [.read null memFree])
  rw [station] at queue
  exact halts_run after (.waiting queue) stops silent

end Orders

theorem packet_sent_next_driven :
    (Run.log (step quietPlatform) (Run.final (step quietPlatform) (typing "fw ad 3 sp 5\r")
      ([.receive] ++ [.read false 0])) ([.timer1 true, .read false 0] ++ [.timer0 false])).filterMap
        Effect.sent = [⟨1, ⟨[0xFF, 0xF0, 0x19, 0x90, 0xCF]⟩⟩] :=
  packet_sent_next quietPlatform .zero (.replicate 50 ' ')
    ("fw ad 3 sp 5\r".toList.map fun c => { c, frameError := false, overrun := false })
    [.receive] [.timer1 true, .read false 0] false 0 ⟨1, ⟨[0xFF, 0xF0, 0x19, 0x90, 0xCF]⟩⟩
    (by decide +kernel) false (by decide) (by decide +kernel)

/-- Loco 3 was under way. -/
theorem stop_line_holds_driven :
    (Run.log (step quietPlatform) (Run.final (step quietPlatform) (typing "fw ad 3 sp 5\rstop\r")
      ([.receive, .read false 0, .timer0 false, .receive] ++ [.read false 0]))
        [.timer0 false, .timer1 true, .timer0 true]).filterMap Effect.sent =
      [⟨2, ⟨[0xFF, 0xF0, 0x01, 0xC0, 0xE1]⟩⟩, ⟨2, ⟨[0xFF, 0xF0, 0x01, 0xC0, 0xE1]⟩⟩] :=
  stop_line_holds quietPlatform .zero (.replicate 50 ' ')
    ("fw ad 3 sp 5\rstop\r".toList.map fun c => { c, frameError := false, overrun := false })
    [.receive, .read false 0, .timer0 false, .receive] [.timer0 false, .timer1 true, .timer0 true]
    false 0 ⟨2, ⟨[0xFF, 0xF0, 0x01, 0xC0, 0xE1]⟩⟩ (by decide +kernel) (by decide +kernel)
    (by decide) (by decide +kernel)

end CommandStation
end Freedcc
