import Freedcc.Blinking
import Freedcc.Ownership
import Freedcc.PacketCustody

/-! The packets of a whole run. What `IO_read` has returned is in one place of the
scheduler or has been destroyed, once, whatever else the interrupts and a `cache clear`
were doing; and no one looks at it afterwards. -/
namespace Freedcc
open Dcc PartialProgram

namespace Desk
open Freedcc.Parser Reader
variable {null : Bool}

section Stream
variable {δ : Type} [Stdin δ] {p next : Parser (Scanner δ)}

theorem getchar_created (read : getchar p = .ok (c, next)) : next.created = p.created := by
  unfold getchar at read
  cases got : Scanner.getchar p.scanner with
  | error fault =>
    rw [got] at read
    contradiction
  | ok pair =>
    rw [got] at read
    obtain ⟨-, rfl⟩ := Prod.mk.inj (Except.ok.inj read)
    rfl

theorem opening_created (opened : opening p = .ok (begun, next)) : next.created = p.created := by
  obtain ⟨c, called, read, later⟩ := bind_ok opened
  have same := getchar_created read
  split at later
  · obtain ⟨⟨⟩, returned, back, later⟩ := bind_ok later
    obtain ⟨-, rfl⟩ := pure_ok.mp later
    obtain ⟨-, rfl⟩ := Prod.mk.inj (Except.ok.inj back)
    exact same
  · obtain ⟨-, rfl⟩ := pure_ok.mp later
    exact same

end Stream

/-- The packet of an accepted line was made in the call. -/
theorem read_created {desk next : Desk} (read : Desk.read null desk = .ok (reading, next)) :
    desk.created ≤ next.created ∧ ∀ type ref, type = .raw ∨ type = .dcc →
      reading = .accepted (some ⟨type, .packet ref⟩) → desk.created ≤ ref.id ∧ ref.id < next.created := by
  by_cases waiting : 0 < desk.scanner.stdin.io.arrived
  · rw [read_waiting waiting] at read
    cases answering_ok.mp read with
    | blank opened => exact ⟨Nat.le_of_eq (opening_created opened).symm, by simp⟩
    | rejected opened started =>
      have same := opening_created opened
      obtain ⟨-, -, -, -, ⟨-, none⟩ | ⟨ref, -, made, -⟩⟩ := parserStart_settled started
      · exact ⟨by omega, by simp⟩
      · exact ⟨by omega, by simp⟩
    | accepted opened started =>
      have same := opening_created opened
      obtain ⟨-, -, -, settled⟩ := parserStart_settled started
      rcases settled with ⟨-, none, result, made, noDcc, noRaw⟩ |
        ⟨-, made, type, ref, result, kind, newest⟩
      · refine ⟨by omega, fun type ref kind told => ?_⟩
        rw [made] at told
        cases told
        rcases kind with rfl | rfl
        · exact absurd rfl noRaw
        · exact absurd rfl noDcc
      · refine ⟨by omega, fun type' ref' _ told => ?_⟩
        rw [result] at told
        cases told
        constructor <;> omega
  · rw [read_idle waiting] at read
    cases read
    exact ⟨Nat.le_refl _, by simp⟩

end Desk

namespace Use

def destroyed : Use → Option PacketRef
  | .event logged => logged.destroyed
  | .shown _ => none

theorem destroyed_eq_some {use : Use} {ref : PacketRef} :
    use.destroyed = some ref ↔ use = .event (.packetDestroy ref) := by
  cases use with
  | event logged => exact Event.destroyed_eq_some.trans (by simp)
  | shown => simp [destroyed]

end Use

theorem SysCmd.shown_occupants {cmd : SysCmd} {cache : Cache} (printed : cmd.shown cache = some ref) :
    ref ∈ cache.occupants := by
  unfold SysCmd.shown at printed
  split at printed
  · rw [Option.join_eq_some_iff] at printed
    obtain ⟨slot, -, found⟩ := Option.bind_eq_some_iff.mp printed
    exact Cache.get_mem_occupants (Option.some.inj found)
  · contradiction

/-- The queue, the slot of the stop packet and the slots of the cache. -/
theorem Scheduler.stock_length {s : Scheduler} (room : s.Room) :
    s.stock.length ≤ schedulerTxQueueLen + 1 + cacheAddrSize := by
  have queued : s.txQueue.contents.length ≤ schedulerTxQueueLen := by
    rw [Ring.contents_length]
    exact room
  have stopped : s.stopPacket.toList.length ≤ 1 := Option.length_toList_le
  have cached : s.cache.occupants.length ≤ cacheAddrSize := by
    apply Nat.le_trans (List.length_filterMap_le _ _)
    rw [Vector.length_toList]
  simp only [stock, List.length_append]
  omega

namespace Clearing
variable {c : Clearing}

/-- An iteration of the loop destroys what is in the slot. -/
theorem resetEntry_stock (c : Clearing) : ∃ held : Option PacketRef,
    (c.step .resetEntry).2 = held.toList.map Event.packetDestroy ∧
      ((c.step .resetEntry).1.scheduler.stock ++ held.toList).Perm c.scheduler.stock := by
  by_cases inside : c.done < cacheAddrSize
  · refine ⟨c.scheduler.cache.packets.entries[c.done].v, ?_, ?_⟩
    · simp only [step, dif_pos inside, Hash.resetEntry, Cache.hashEntryDestroy_eq, List.nil_append]
      rfl
    · have emptied := c.scheduler.cache.packets.values_set_perm ⟨c.done, inside⟩
        { c.scheduler.cache.packets.entries[c.done] with v := none }
      rw [Option.toList_none, List.append_nil] at emptied
      simp only [step, dif_pos inside, Hash.resetEntry, Cache.hashEntryDestroy_eq, Scheduler.stock,
        List.append_assoc]
      apply List.Perm.append_left
      apply List.Perm.append_left
      exact emptied
  · refine ⟨none, ?_, ?_⟩
    · rw [step, dif_neg inside]
      rfl
    · rw [step, dif_neg inside, Option.toList_none, List.append_nil]

end Clearing

namespace CommandStation
variable {platform : Platform} {s next : CommandStation}

/-- What a step does with packets: those that `IO_read` returns, and what is done with
those it finds. -/
structure Spends (s next : CommandStation) (given : List PacketRef) (uses : List Use) : Prop where
  idle : next.clearing.scheduler.idlePacket = s.clearing.scheduler.idlePacket
  created : s.desk.created ≤ next.desk.created
  single : given.length ≤ 1
  numbered : ∀ ref ∈ given, s.desk.created ≤ ref.id ∧ ref.id < next.desk.created
  turn : Inventory.Turn Use.packet Use.destroyed s.clearing.scheduler.idlePacket
    s.clearing.scheduler.stock given next.clearing.scheduler.stock uses

/-- The scheduler goes on, and the packets made are as before. -/
theorem spends_events {events : List Dcc.Event}
    (idle : next.clearing.scheduler.idlePacket = s.clearing.scheduler.idlePacket)
    (created : next.desk.created = s.desk.created)
    (turn : Inventory.Turn Event.packet Event.destroyed s.clearing.scheduler.idlePacket
      s.clearing.scheduler.stock [] next.clearing.scheduler.stock events) :
    Spends s next [] (events.map .event) :=
  ⟨idle, Nat.le_of_eq created.symm, Nat.zero_le _, by simp,
    turn.map Use.event (fun _ => rfl) fun _ => rfl⟩

theorem spends_timer0 (late : Bool)
    (room : (s.step platform (.timer0 late)).1.clearing.scheduler.Room) :
    Spends s (s.step platform (.timer0 late)).1 []
      ((s.step platform (.timer0 late)).2.filterMap Effect.used) := by
  have used : (s.step platform (.timer0 late)).2.filterMap Effect.used =
      (Scheduler.step s.clearing.scheduler .tick).2.map .event := modulateAll_used late s.signal _
  rw [used]
  exact spends_events (Scheduler.step_idlePacket _ .tick) rfl
    (Scheduler.step_turn s.clearing.scheduler .tick room)

theorem spends_resetEntry : Spends s (s.step platform .resetEntry).1 []
    ((s.step platform .resetEntry).2.filterMap Effect.used) := by
  have used : (s.step platform .resetEntry).2.filterMap Effect.used =
      (s.clearing.step .resetEntry).2.map .event := by
    have sweeps := step_resetEntry platform s
    generalize s.step platform .resetEntry = next at sweeps ⊢
    cases sweeps with
    | more | last => exact Effect.events_used _
  have created : (s.step platform .resetEntry).1.desk.created = s.desk.created := by
    have sweeps := step_resetEntry platform s
    generalize s.step platform .resetEntry = next at sweeps ⊢
    cases sweeps with
    | more | last => rfl
  have clearing := (resetEntry_step platform s).1
  obtain ⟨held, events, balance⟩ := s.clearing.resetEntry_stock
  rw [used]
  apply spends_events
  · rw [clearing, Clearing.step_idlePacket]
  · exact created
  · rw [clearing]
    refine ⟨?_, fun event logged => ?_, fun _ => ?_⟩
    · rw [events, Event.filterMap_destroyed, List.append_nil]
      exact balance
    · refine (Clearing.step_event_mem logged).imp_right ?_
      rintro rfl
      rfl
    · rw [events]
      cases held <;> simp

theorem handed_packet {result : Option Result} (member : ref ∈ Scheduler.added (handed result)) :
    ∃ type, (type = .raw ∨ type = .dcc) ∧ result = some ⟨type, .packet ref⟩ := by
  rw [handed.eq_def] at member
  split at member
  · obtain rfl := List.mem_singleton.mp member
    exact ⟨.raw, Or.inl rfl, rfl⟩
  · obtain rfl := List.mem_singleton.mp member
    exact ⟨.dcc, Or.inr rfl, rfl⟩
  · cases member
  · cases member

variable (platform) in
/-- Carrying out a line makes no packets, and only `cache show` looks at one. -/
theorem answer_uses (memFree : BitVec 16) (reading : Desk.Reading) (s : CommandStation) :
    (s.answer platform memFree reading).1.desk.created = s.desk.created ∧
      ∃ printed : Option PacketRef, (s.answer platform memFree reading).2.filterMap Effect.used =
          printed.toList.map .shown ∧
        ∀ ref ∈ printed, ref ∈ s.clearing.scheduler.cache.occupants := by
  have nothing : ([] : List Effect).filterMap Effect.used = (none : Option PacketRef).toList.map .shown ∧
      ∀ ref ∈ (none : Option PacketRef), ref ∈ s.clearing.scheduler.cache.occupants := by simp
  have obeyed := obeyed platform memFree reading s
  generalize s.answer platform memFree reading = next at obeyed ⊢
  cases obeyed with
  | nothing | blank | rejected | packet | mute => exact ⟨rfl, none, nothing⟩
  | cmd cmd =>
    have called := called platform memFree cmd
      ((s.account Sys.parseOkIncrement).account Sys.processSysCmd)
    generalize CommandStation.call platform memFree cmd _ = next at called ⊢
    cases called with
    | prints text other =>
      exact ⟨rfl, cmd.shown s.clearing.scheduler.cache, Effect.shown_used _,
        fun ref printed => SysCmd.shown_occupants printed⟩
    | clears | mute => exact ⟨rfl, none, nothing⟩

variable (platform) in
/-- What a call of `IO_read` does with packets. -/
theorem read_uses (null : Bool) (memFree : BitVec 16) (s : CommandStation) :
    s.desk.created ≤ (s.step platform (.read null memFree)).1.desk.created ∧
      (∀ ref ∈ Scheduler.added (s.calls (.read null memFree)),
        s.desk.created ≤ ref.id ∧ ref.id < (s.step platform (.read null memFree)).1.desk.created) ∧
      ∃ printed : Option PacketRef,
        (s.step platform (.read null memFree)).2.filterMap Effect.used = printed.toList.map .shown ∧
        ∀ ref ∈ printed, ref ∈ s.clearing.scheduler.cache.occupants := by
  have step := step_read platform memFree null s
  generalize s.step platform (.read null memFree) = next at step ⊢
  cases step with
  | busy waits =>
    rw [calls, if_pos waits]
    exact ⟨Nat.le_refl _, by simp [Scheduler.added], none, rfl, by simp⟩
  | stuck free read =>
    rw [calls, if_neg free, read]
    exact ⟨Nat.le_refl _, by simp [Scheduler.added], none, rfl, by simp⟩
  | @answers reading desk free read =>
    rw [calls, if_neg free, read]
    obtain ⟨later, made⟩ := Desk.read_created read
    obtain ⟨same, used⟩ := answer_uses platform memFree reading { s with desk }
    refine ⟨?_, ?_, used⟩
    · rw [same]
      exact later
    · intro ref member
      rw [same]
      cases reading with
      | nothing | blank | rejected => cases member
      | accepted result =>
        obtain ⟨type, kind, rfl⟩ := handed_packet member
        exact made type ref kind rfl

/-- The line is carried out. -/
theorem spends_read (null : Bool) (memFree : BitVec 16)
    (room : (s.step platform (.read null memFree)).1.clearing.scheduler.Room) :
    Spends s (s.step platform (.read null memFree)).1
      (Scheduler.added (s.calls (.read null memFree)))
      ((s.step platform (.read null memFree)).2.filterMap Effect.used) := by
  obtain ⟨created, numbered, printed, used, shown⟩ := read_uses platform null memFree s
  have quiet : (printed.toList.map Use.shown).filterMap Use.destroyed = [] := by
    rw [List.filterMap_map]
    exact List.filterMap_none _
  have scheduler : (s.step platform (.read null memFree)).1.clearing.scheduler.idlePacket =
        s.clearing.scheduler.idlePacket ∧
      (Scheduler.added (s.calls (.read null memFree))).length ≤ 1 ∧
      (s.step platform (.read null memFree)).1.clearing.scheduler.stock.Perm
        (s.clearing.scheduler.stock ++ Scheduler.added (s.calls (.read null memFree))) := by
    have hands := read_hands platform null memFree s
    generalize (s.step platform (.read null memFree)).1.clearing = after at hands room ⊢
    generalize s.calls (.read null memFree) = ops at hands ⊢
    cases hands with
    | nothing => exact ⟨rfl, Nat.zero_le _, List.append_nil _ ▸ .refl _⟩
    | clear => exact ⟨rfl, Nat.zero_le _, List.append_nil _ ▸ .refl _⟩
    | packet ref =>
      refine ⟨rfl, Nat.le_refl _, ?_⟩
      have added := Scheduler.step_stock s.clearing.scheduler (.addPacket ref) room
      rw [Scheduler.step, List.filterMap_nil, List.append_nil] at added
      exact added
  obtain ⟨idle, single, balance⟩ := scheduler
  rw [used]
  refine ⟨idle, created, single, numbered, ?_, ?_, ?_⟩
  · rw [quiet, List.append_nil]
    exact balance
  · intro use member
    obtain ⟨ref, here, rfl⟩ := List.mem_map.mp member
    exact Or.inl (List.mem_append_right _ (shown ref (Option.mem_toList.mp here)))
  · intro _
    cases printed <;> simp

theorem spends_nothing (clearing : next.clearing = s.clearing)
    (created : next.desk.created = s.desk.created) : Spends s next [] [] := by
  refine ⟨?_, Nat.le_of_eq created.symm, Nat.zero_le _, by simp, ?_⟩
  · rw [clearing]
  · rw [clearing]
    exact Inventory.turn_nil

theorem spends_step (op : Op) (room : (s.step platform op).1.clearing.scheduler.Room) :
    Spends s (s.step platform op).1 (Scheduler.added (s.calls op))
      ((s.step platform op).2.filterMap Effect.used) := by
  cases op with
  | receive => exact spends_nothing rfl rfl
  | timer1 pind =>
    have used : (s.step platform (.timer1 pind)).2.filterMap Effect.used = [] := by
      apply List.filterMap_eq_nil_iff.mpr
      intro effect member
      obtain ⟨value, -, rfl⟩ := List.mem_map.mp member
      rfl
    rw [used]
    exact spends_nothing rfl rfl
  | timer0 late => exact spends_timer0 late room
  | resetEntry => exact spends_resetEntry
  | read null memFree => exact spends_read null memFree room

/-- The packets that `IO_read` has returned, and what has been done with them. -/
structure Ledger (given : List PacketRef) (uses : List Use) (s : CommandStation) : Prop where
  idle : s.clearing.scheduler.idlePacket = Scheduler.idle
  numbered : (Scheduler.idle :: given).Pairwise (·.id < ·.id)
  made : ∀ ref ∈ Scheduler.idle :: given, ref.id < s.desk.created
  books : Inventory.Books Use.packet Use.destroyed Scheduler.idle given s.clearing.scheduler.stock uses

variable {given more : List PacketRef} {uses used : List Use}

theorem ledger_start (memory : Scheduler.Memory) (buf : Vector Char 50) (wire : List Rx) :
    Ledger [] [] (start memory buf wire) := by
  refine ⟨rfl, List.pairwise_singleton _ _, ?_, ?_⟩
  · intro ref member
    rw [List.mem_singleton.mp member]
    exact Nat.one_pos
  · have stock : (start memory buf wire).clearing.scheduler.stock = [] :=
      Scheduler.stock_moduleInit memory
    rw [stock]
    exact Inventory.books_nil

/-- No two packets have the same number. -/
theorem Ledger.distinct (ledger : Ledger given uses s) : (Scheduler.idle :: given).Nodup := by
  apply ledger.numbered.imp
  rintro a b less rfl
  exact Nat.lt_irrefl _ less

theorem Ledger.enter (ledger : Ledger given uses s) (spends : Spends s next more used) :
    Ledger (given ++ more) (uses ++ used) next := by
  refine ⟨spends.idle.trans ledger.idle, ?_, ?_, ledger.books.turn (ledger.idle ▸ spends.turn)⟩
  · rw [← List.cons_append]
    refine List.pairwise_append.mpr ⟨ledger.numbered, ?_, fun old before new after => ?_⟩
    · have single := spends.single
      rcases more with _ | ⟨one, _ | ⟨_, _⟩⟩
      · exact .nil
      · exact List.pairwise_singleton _ _
      · exact absurd single (by simp)
    · exact Nat.lt_of_lt_of_le (ledger.made old before) (spends.numbered new after).1
  · intro ref member
    rw [← List.cons_append] at member
    rcases List.mem_append.mp member with old | new
    · exact Nat.lt_of_lt_of_le (ledger.made ref old) spends.created
    · exact (spends.numbered ref new).2

theorem run_ledger (ops : List Op) (ledger : Ledger given uses s)
    (room : Run.Always (step platform) (fun s => s.clearing.scheduler.Room) s ops) :
    Ledger (given ++ Scheduler.added (Run.translated (step platform) calls s ops))
      (uses ++ (Run.log (step platform) s ops).filterMap Effect.used)
      (Run.final (step platform) s ops) := by
  induction ops generalizing s given uses with
  | nil =>
    rw [Run.translated, Run.log, Run.log, Scheduler.added, List.filterMap_nil, List.filterMap_nil,
      List.append_nil, List.append_nil]
    exact ledger
  | cons op rest ih =>
    obtain ⟨-, later⟩ := Run.always_cons.mp room
    have entered := ledger.enter (spends_step op later.first)
    rw [Run.translated_cons, Scheduler.added_append, ← List.append_assoc, Run.log,
      List.filterMap_append, ← List.append_assoc]
    exact ih entered later

/-- Whatever the host sends and however the interrupts fall: as long as the queue is not pushed
full, each packet that `IO_read` has returned is in one place of the scheduler or has been
destroyed, once; nothing is done with a packet that is destroyed, not even by `cache show`;
the idle packet stays; and no more than 41 packets are kept. -/
theorem packets_kept (platform : Platform) (memory : Scheduler.Memory) (buf : Vector Char 50)
    (wire : List Rx) (ops : List Op)
    (room : Run.Always (step platform) (fun s => s.clearing.scheduler.Room) (start memory buf wire) ops) :
    let returned := Scheduler.added (Run.translated (step platform) calls (start memory buf wire) ops)
    let uses := (Run.log (step platform) (start memory buf wire) ops).filterMap Effect.used
    let held := (Run.final (step platform) (start memory buf wire) ops).clearing.scheduler
    (∀ ref ∈ returned, held.places ref + uses.count (.event (.packetDestroy ref)) = 1) ∧
      uses.Pairwise (fun earlier later => earlier ≠ .event (.packetDestroy later.packet)) ∧
      .event (.packetDestroy Scheduler.idle) ∉ uses ∧
      returned.length ≤ 41 + (uses.filterMap Use.destroyed).length := by
  have ledger := run_ledger ops (ledger_start memory buf wire) room
  rw [List.nil_append, List.nil_append] at ledger
  intro returned uses held
  refine ⟨fun ref member => ?_, ?_, fun gone => ?_, ?_⟩
  · rw [Scheduler.places_eq_count, ← Inventory.count_gone Use.destroyed_eq_some]
    exact ledger.books.once (List.nodup_cons.mp ledger.distinct).2 member
  · exact (ledger.books.alive ledger.distinct).imp fun alive same =>
      alive (Use.destroyed_eq_some.mpr same)
  · exact ledger.books.own_kept ledger.distinct (List.mem_filterMap.mpr ⟨_, gone, rfl⟩)
  · have counted : held.stock.length + (uses.filterMap Use.destroyed).length = returned.length := by
      rw [← List.length_append]
      exact ledger.books.balance.length_eq
    have few : held.stock.length ≤ 41 := Scheduler.stock_length room.last
    omega

theorem packets_kept_forgetting :
    (Run.final (step quietPlatform) (typing "fw ad 3 sp 5\rcache clear\r")
      forgetting).clearing.scheduler.places ⟨1, ⟨[0xFF, 0xF0, 0x19, 0x90, 0xCF]⟩⟩ +
        ((Run.log (step quietPlatform) (typing "fw ad 3 sp 5\rcache clear\r") forgetting).filterMap
          Effect.used).count (.event (.packetDestroy ⟨1, ⟨[0xFF, 0xF0, 0x19, 0x90, 0xCF]⟩⟩)) = 1 := by
  have room : Run.Always (step quietPlatform) (fun s => s.clearing.scheduler.Room)
      (typing "fw ad 3 sp 5\rcache clear\r") forgetting := by
    decide +kernel
  have returned : ⟨1, ⟨[0xFF, 0xF0, 0x19, 0x90, 0xCF]⟩⟩ ∈ Scheduler.added
      (Run.translated (step quietPlatform) calls (typing "fw ad 3 sp 5\rcache clear\r") forgetting) := by
    decide +kernel
  rw [typing] at room returned ⊢
  exact (packets_kept quietPlatform _ _ _ forgetting room).1 _ returned

end CommandStation
end Freedcc
