import Freedcc.PacketLedger

/-! How the packets get out. Whatever the interrupts fall between: the track hears of the
packets in the order `IO_read` has returned them, none is left out, and none waits for
more ticks than the queue is long. -/
namespace Freedcc
open Dcc

/-- The packets sent, in the order of their first sends; the idle packet is nobody's. -/
def firstSends (sends : List PacketRef) : List PacketRef :=
  (sends.filter (· ≠ Scheduler.idle)).eraseDups

section FirstSends
variable {sends : List PacketRef} {ref : PacketRef}

theorem mem_firstSends : ref ∈ firstSends sends ↔ ref ∈ sends ∧ ref ≠ Scheduler.idle := by
  simp [firstSends]

theorem firstSends_idle : firstSends (sends ++ [Scheduler.idle]) = firstSends sends := by
  simp [firstSends]

theorem firstSends_again (known : ref ∈ firstSends sends) :
    firstSends (sends ++ [ref]) = firstSends sends := by
  obtain ⟨sent, busy⟩ := mem_firstSends.mp known
  have repeated : [ref].removeAll (sends.filter (· ≠ Scheduler.idle)) = [] := by
    simp [List.cons_removeAll, sent, busy]
  have kept : [ref].filter (· ≠ Scheduler.idle) = [ref] := by simp [busy]
  rw [firstSends, List.filter_append, List.eraseDups_append, kept, repeated, List.eraseDups_nil,
    List.append_nil, firstSends]

theorem firstSends_fresh (fresh : ref ∉ firstSends sends) (busy : ref ≠ Scheduler.idle) :
    firstSends (sends ++ [ref]) = firstSends sends ++ [ref] := by
  have unsent : ref ∉ sends := fun sent => fresh (mem_firstSends.mpr ⟨sent, busy⟩)
  have added : [ref].removeAll (sends.filter (· ≠ Scheduler.idle)) = [ref] := by
    simp [List.cons_removeAll, unsent]
  have kept : [ref].filter (· ≠ Scheduler.idle) = [ref] := by simp [busy]
  rw [firstSends, List.filter_append, List.eraseDups_append, kept, added, firstSends]
  rfl

end FirstSends

namespace Scheduler
variable {s next : Scheduler} {given : List PacketRef}

/-- What a step sends: the packet that has waited longest, or else one that is known. -/
inductive Delivers (s next : Scheduler) (given : List PacketRef) : List PacketRef → Prop where
  | quiet (queue : s.txQueue.contents ++ given = next.txQueue.contents) : Delivers s next given []
  | first (tx : PacketRef) (queue : s.txQueue.contents ++ given = tx :: next.txQueue.contents) :
      Delivers s next given [tx]
  | again (ref : PacketRef) (queue : s.txQueue.contents ++ given = next.txQueue.contents)
      (known : ref = s.idlePacket ∨ ref ∈ s.stopPacket.toList ++ s.cache.occupants) :
      Delivers s next given [ref]

theorem tick_delivers (s : Scheduler) :
    Delivers s (step s .tick).1 [] ((step s .tick).2.filterMap sent) := by
  rcases s.ticked with ⟨tx, _, queue, -, -, -, -⟩ | ⟨tx, _, queue, -, -, -, -⟩ |
    ⟨stop, queue, stored, same, events⟩ | ⟨queue, stored, turned, events⟩
  · rw [tick_first queue]
    apply Delivers.first tx
    rw [List.append_nil]
    exact queue
  · rw [tick_first queue]
    apply Delivers.first tx
    rw [List.append_nil]
    exact queue
  · rw [events]
    apply Delivers.again stop
    · rw [same, List.append_nil]
    · rw [stored]
      exact Or.inr (List.mem_append_left _ (List.mem_singleton_self stop))
  · rw [events]
    apply Delivers.again
    · rw [turned, List.append_nil]
    · cases found : s.cache.getNextPacket.1 with
      | none => exact Or.inl rfl
      | some cached => exact Or.inr (List.mem_append_right _ (Cache.next_mem_occupants found))

theorem tick_queue (queue : s.txQueue.contents = tx :: rest) :
    (step s .tick).1.txQueue.contents = rest := by
  rcases s.ticked with ⟨other, _, pending, -, -, -, -⟩ | ⟨other, _, pending, -, -, -, -⟩ |
    ⟨_, pending, -, -, -⟩ | ⟨pending, -, -, -⟩
  · exact (List.cons.inj (queue.symm.trans pending)).2.symm
  · exact (List.cons.inj (queue.symm.trans pending)).2.symm
  · rw [queue] at pending
    contradiction
  · rw [queue] at pending
    contradiction

end Scheduler

theorem Clearing.resetEntry_txQueue (c : Clearing) :
    (c.step .resetEntry).1.scheduler.txQueue = c.scheduler.txQueue := by
  simp only [step]
  split <;> rfl

namespace CommandStation
variable {platform : Platform} {s : CommandStation}

theorem step_delivers (op : Op) (room : (s.step platform op).1.clearing.scheduler.Room) :
    Scheduler.Delivers s.clearing.scheduler (s.step platform op).1.clearing.scheduler
      (Scheduler.added (s.calls op)) ((s.step platform op).2.filterMap Effect.sent) := by
  cases op with
  | receive => exact .quiet (List.append_nil _)
  | timer1 pind =>
    rw [timer1_sends]
    exact .quiet (List.append_nil _)
  | timer0 late =>
    have sends : (s.step platform (.timer0 late)).2.filterMap Effect.sent =
        (Scheduler.step s.clearing.scheduler .tick).2.filterMap Scheduler.sent :=
      modulateAll_sent late s.signal _
    rw [sends]
    exact s.clearing.scheduler.tick_delivers
  | resetEntry =>
    obtain ⟨clearing, silent⟩ := resetEntry_step platform s
    rw [silent, clearing]
    apply Scheduler.Delivers.quiet
    rw [Clearing.resetEntry_txQueue]
    exact List.append_nil _
  | read null memFree =>
    rw [read_sends]
    apply Scheduler.Delivers.quiet
    have hands := read_hands platform null memFree s
    generalize (s.step platform (.read null memFree)).1.clearing = after at hands room ⊢
    generalize s.calls (.read null memFree) = calls at hands ⊢
    cases hands with
    | nothing => exact List.append_nil _
    | clear => exact List.append_nil _
    | packet ref => exact (Ring.contents_push _ _ room).symm

variable {next : CommandStation} {given more sends sent : List PacketRef} {uses used : List Use}

/-- A packet out of the queue is sent for the first time, and any other again. -/
theorem Ledger.delivers (ledger : Ledger given uses s) (later : Ledger (given ++ more) used next)
    (delivered : firstSends sends ++ s.clearing.scheduler.txQueue.contents = given)
    (delivers : Scheduler.Delivers s.clearing.scheduler next.clearing.scheduler more sent) :
    firstSends (sends ++ sent) ++ next.clearing.scheduler.txQueue.contents = given ++ more := by
  cases delivers with
  | quiet queue => rw [List.append_nil, ← queue, ← List.append_assoc, delivered]
  | first tx queue =>
    have split : firstSends sends ++ tx :: next.clearing.scheduler.txQueue.contents = given ++ more := by
      rw [← queue, ← List.append_assoc, delivered]
    obtain ⟨unidle, distinct⟩ := List.nodup_cons.mp later.distinct
    have busy : tx ≠ Scheduler.idle := by
      rintro rfl
      apply unidle
      rw [← split]
      exact List.mem_append_right _ List.mem_cons_self
    have fresh : tx ∉ firstSends sends := by
      intro sent
      rw [← split] at distinct
      exact (List.nodup_append.mp distinct).2.2 tx sent tx List.mem_cons_self rfl
    rw [firstSends_fresh fresh busy, List.append_assoc, List.singleton_append]
    exact split
  | again ref queue known =>
    have kept : firstSends (sends ++ [ref]) = firstSends sends := by
      rcases known with idle | held
      · rw [idle, ledger.idle]
        exact firstSends_idle
      · apply firstSends_again
        obtain ⟨-, owned⟩ := List.nodup_cons.mp ledger.distinct
        obtain ⟨stocked, -, -⟩ := List.nodup_append.mp (ledger.books.owned owned)
        rw [Scheduler.stock, List.append_assoc] at stocked
        have returned : ref ∈ given := by
          apply ledger.books.stocked
          rw [Scheduler.stock, List.append_assoc]
          exact List.mem_append_right _ held
        rw [← delivered] at returned
        rcases List.mem_append.mp returned with sent | waiting
        · exact sent
        · exact absurd rfl ((List.nodup_append.mp stocked).2.2 ref waiting ref held)
    rw [kept, ← queue, ← List.append_assoc, delivered]

theorem run_delivers (ops : List Op) (ledger : Ledger given uses s)
    (delivered : firstSends sends ++ s.clearing.scheduler.txQueue.contents = given)
    (room : Run.Always (step platform) (fun s => s.clearing.scheduler.Room) s ops) :
    firstSends (sends ++ (Run.log (step platform) s ops).filterMap Effect.sent) ++
        (Run.final (step platform) s ops).clearing.scheduler.txQueue.contents =
      given ++ Scheduler.added (Run.translated (step platform) calls s ops) := by
  induction ops generalizing s given uses sends with
  | nil =>
    rw [Run.translated, Run.log, Run.log, Scheduler.added, List.filterMap_nil, List.filterMap_nil,
      List.append_nil, List.append_nil]
    exact delivered
  | cons op rest ih =>
    obtain ⟨-, later⟩ := Run.always_cons.mp room
    have entered := ledger.enter (spends_step op later.first)
    have next := ledger.delivers entered delivered (step_delivers op later.first)
    rw [Run.translated_cons, Scheduler.added_append, ← List.append_assoc, Run.log,
      List.filterMap_append, ← List.append_assoc]
    exact ih entered next later

/-- Whatever the host sends and however the interrupts fall: as long as the queue is not pushed
full, the packets are first sent in the order `IO_read` has returned them, without a gap, and
those not yet sent wait in that order. -/
theorem first_sends_in_order (platform : Platform) (memory : Scheduler.Memory)
    (buf : Vector Char 50) (wire : List Rx) (ops : List Op)
    (room : Run.Always (step platform) (fun s => s.clearing.scheduler.Room) (start memory buf wire) ops) :
    firstSends ((Run.log (step platform) (start memory buf wire) ops).filterMap Effect.sent) ++
        (Run.final (step platform) (start memory buf wire) ops).clearing.scheduler.txQueue.contents =
      Scheduler.added (Run.translated (step platform) calls (start memory buf wire) ops) := by
  have empty : firstSends [] ++ (start memory buf wire).clearing.scheduler.txQueue.contents = [] := rfl
  exact run_delivers ops (ledger_start memory buf wire) empty room

theorem first_sends_in_order_forgetting :
    firstSends ((Run.log (step quietPlatform) (typing "fw ad 3 sp 5\rcache clear\r") forgetting).filterMap
        Effect.sent) = [⟨1, ⟨[0xFF, 0xF0, 0x19, 0x90, 0xCF]⟩⟩] := by
  have room : Run.Always (step quietPlatform) (fun s => s.clearing.scheduler.Room)
      (typing "fw ad 3 sp 5\rcache clear\r") forgetting := by
    decide +kernel
  have returned : Scheduler.added (Run.translated (step quietPlatform) calls
      (typing "fw ad 3 sp 5\rcache clear\r") forgetting) = [⟨1, ⟨[0xFF, 0xF0, 0x19, 0x90, 0xCF]⟩⟩] := by
    decide +kernel
  have drained : (Run.final (step quietPlatform) (typing "fw ad 3 sp 5\rcache clear\r")
      forgetting).clearing.scheduler.txQueue.contents = [] := by
    decide +kernel
  rw [typing] at room returned drained ⊢
  have all := first_sends_in_order quietPlatform _ _ _ forgetting room
  rw [returned, drained, List.append_nil] at all
  exact all

variable {ref : PacketRef}

/-- Only TIMER0 sends, so that between its ticks the queue does not move. -/
theorem waits_between (op : Op) (between : op.ticks = false)
    (room : (s.step platform op).1.clearing.scheduler.Room) :
    (s.step platform op).1.clearing.scheduler.txQueue.contents =
      s.clearing.scheduler.txQueue.contents ++ Scheduler.added (s.calls op) := by
  have silent : (s.step platform op).2.filterMap Effect.sent = [] := by
    cases op with
    | receive => rfl
    | timer0 late => contradiction
    | timer1 pind => exact timer1_sends platform pind s
    | resetEntry => exact (resetEntry_step platform s).2
    | read null memFree => exact read_sends null memFree s
  have delivers := step_delivers op room
  rw [silent] at delivers
  cases delivers with
  | quiet queue => exact queue.symm

/-- Each tick brings a waiting packet one place forward. -/
theorem waiting_sent {ahead behind : List PacketRef} (ops : List Op)
    (waiting : s.clearing.scheduler.txQueue.contents = ahead ++ ref :: behind)
    (ticks : ahead.length < ops.countP Op.ticks)
    (room : Run.Always (step platform) (fun s => s.clearing.scheduler.Room) s ops) :
    ref ∈ (Run.log (step platform) s ops).filterMap Effect.sent := by
  induction ops generalizing s ahead behind with
  | nil => exact absurd ticks (Nat.not_lt_zero _)
  | cons op rest ih =>
    obtain ⟨-, later⟩ := Run.always_cons.mp room
    rw [Run.log, List.filterMap_append]
    cases ticked : op.ticks with
    | false =>
      have moved := waits_between op ticked later.first
      rw [waiting, List.append_assoc, List.cons_append] at moved
      rw [List.countP_cons_of_neg (by simp [ticked])] at ticks
      apply List.mem_append_right
      exact ih moved ticks later
    | true =>
      rw [List.countP_cons_of_pos ticked] at ticks
      cases op with
      | receive | timer1 pind | resetEntry | read null memFree => contradiction
      | timer0 late =>
        cases ahead with
        | nil =>
          have sends : (s.step platform (.timer0 late)).2.filterMap Effect.sent = [ref] :=
            (modulateAll_sent late s.signal _).trans (Scheduler.tick_first waiting)
          rw [sends]
          exact List.mem_append_left _ (List.mem_singleton_self ref)
        | cons tx ahead =>
          have moved : (s.step platform (.timer0 late)).1.clearing.scheduler.txQueue.contents =
              ahead ++ ref :: behind := Scheduler.tick_queue waiting
          apply List.mem_append_right
          exact ih moved (Nat.lt_of_succ_lt_succ ticks) later

/-- Whatever comes in between: no packet waits for more ticks than the queue is long. -/
theorem returned_sent_within (platform : Platform) (memory : Scheduler.Memory)
    (buf : Vector Char 50) (wire : List Rx) (before after : List Op)
    (returned : ref ∈ Scheduler.added
      (Run.translated (step platform) calls (start memory buf wire) before))
    (ticks : schedulerTxQueueLen ≤ after.countP Op.ticks)
    (room : Run.Always (step platform) (fun s => s.clearing.scheduler.Room) (start memory buf wire)
      (before ++ after)) :
    ref ∈ (Run.log (step platform) (start memory buf wire) (before ++ after)).filterMap Effect.sent := by
  obtain ⟨earlier, later⟩ := Run.always_append.mp room
  rw [Run.log_append, List.filterMap_append]
  have empty : firstSends [] ++ (start memory buf wire).clearing.scheduler.txQueue.contents = [] := rfl
  have all := run_delivers before (ledger_start memory buf wire) empty earlier
  rw [List.nil_append, List.nil_append] at all
  rw [← all] at returned
  rcases List.mem_append.mp returned with sent | waiting
  · exact List.mem_append_left _ (mem_firstSends.mp sent).1
  · obtain ⟨ahead, behind, split⟩ := List.append_of_mem waiting
    apply List.mem_append_right
    apply waiting_sent after split _ later
    have queued : ahead.length + (behind.length + 1) ≤ schedulerTxQueueLen := by
      rw [← List.length_cons, ← List.length_append, ← split, Ring.contents_length]
      exact earlier.last
    omega

theorem returned_sent_within_driven :
    ⟨1, ⟨[0xFF, 0xF0, 0x19, 0x90, 0xCF]⟩⟩ ∈ (Run.log (step quietPlatform) (typing "fw ad 3 sp 5\r")
      ([.receive, .read false 0] ++ List.replicate 20 (.timer0 false))).filterMap Effect.sent := by
  have returned : ⟨1, ⟨[0xFF, 0xF0, 0x19, 0x90, 0xCF]⟩⟩ ∈ Scheduler.added
      (Run.translated (step quietPlatform) calls (typing "fw ad 3 sp 5\r") [.receive, .read false 0]) := by
    decide +kernel
  have room : Run.Always (step quietPlatform) (fun s => s.clearing.scheduler.Room)
      (typing "fw ad 3 sp 5\r") ([.receive, .read false 0] ++ List.replicate 20 (.timer0 false)) := by
    decide +kernel
  rw [typing] at returned room ⊢
  exact returned_sent_within quietPlatform _ _ _ _ _ returned (by decide) room

end CommandStation
end Freedcc
