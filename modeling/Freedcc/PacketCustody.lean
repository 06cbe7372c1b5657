import Freedcc.ParserResults

/-! Who holds the packets of one parse: at most the newest is in the result, and
an error destroys that one. Every other packet made in the call is lost. -/
namespace Freedcc.Parser
open Dcc PartialProgram
variable {σ : Type}

def destroyedSince (before next : Parser σ) : List Nat :=
  (next.trace.drop before.trace.length).filterMap fun
    | .packetDestroy ref => some ref.id
    | _ => none

/-- The packets made in a call and not destroyed in it. -/
def remaining (before next : Parser σ) : List Nat :=
  (List.range' before.created (next.created - before.created)).filter (· ∉ destroyedSince before next)

/-- What a call that leaks no packet leaves: nothing but the packet it hands over. -/
structure NoLeak (before : Parser σ) (accepted : Bool) (next : Parser σ) : Prop where
  error : accepted = false → remaining before next = [] ∧ next.result = none
  packet : accepted = true → ∀ type payload, next.result = some ⟨type, payload⟩ →
    type = .dcc ∨ type = .raw → ∃ ref, payload = .packet ref ∧ remaining before next = [ref.id]
  sys : accepted = true → ∀ payload, next.result = some ⟨.sys, payload⟩ → remaining before next = []

section Primitives
variable {P Q : Option Result → Nat → Trace → Prop}

/-- A word that comes next is accepted; any other is left. -/
theorem accept_here [TokenSource σ] (word : Tok) :
    Ensures (fun p => p.curr = word ∧ Booked P p) (accept word : Parse σ Bool)
      fun accepted p => accepted = true ∧ Booked P p := by
  rintro s a t ⟨here, before⟩ returned
  obtain ⟨b, u, test, later⟩ := bind_ok returned
  rw [acceptNoAdvance_eq, decide_eq_true here.symm] at test
  cases test
  obtain ⟨⟨⟩, v, moved, last⟩ := bind_ok (later : (do advance; return true : Parse σ Bool) s = _)
  obtain ⟨rfl, rfl⟩ := pure_ok.mp last
  exact ⟨rfl, advance_booked s () v before moved⟩

/-- What is tried for the word that comes next. -/
theorem word_booked [TokenSource σ] {word : Tok} {x y : Parse σ Bool}
    (later : Ensures (Booked P) x fun _ => Booked Q) :
    Ensures (fun p => p.curr = word ∧ Booked P p) (do if ← accept word then x else y)
      fun _ => Booked Q :=
  (accept_here word).cond (later.weaken (fun _ holds => holds.2) fun _ _ holds => holds)
    fun _ _ _ wrong => absurd wrong.1 Bool.false_ne_true

/-- Stable under writes to the packet. -/
abbrev Written (P : Option Result → Nat → Trace → Prop) : Prop :=
  ∀ change r created trace, P r created trace → P (r.map (·.write change)) created trace

theorem onPacket_booked (written : Written P) (change : Packet → Packet) :
    Ensures (Booked P) (onPacket change : Parse σ Unit) fun _ => Booked P :=
  .modify fun _ holds => written change _ _ _ holds

/-- What a new packet makes of the books, where there is a result. -/
structure Makes (P Q : Option Result → Nat → Trace → Prop) (type : ResType) : Prop where
  present : ∀ created trace, ¬ P none created trace
  packet : ∀ r created trace packet, P (some r) created trace →
    Q (some ⟨type, .packet ⟨created, packet⟩⟩) (created + 1) trace

theorem makePacket_booked (makes : Makes P Q type) (packet : Packet) :
    Ensures (Booked P) (makePacket type packet : Parse σ Unit) fun _ => Booked Q := by
  refine .modify fun p holds => ?_
  cases same : p.result with
  | none =>
    rw [Booked, same] at holds
    exact absurd holds (makes.present _ _)
  | some r =>
    rw [Booked, same] at holds
    exact makes.packet r _ _ packet holds

/-- Stable under a system command for a result. -/
abbrev Commanded (P : Option Result → Nat → Trace → Prop) : Prop :=
  ∀ cmd r created trace, P r created trace →
    P (r.map fun _ => ⟨.sys, .cmd cmd⟩) created trace

theorem makeCmd_booked (commanded : Commanded P) (cmd : SysCmd) :
    Ensures (Booked P) (makeCmd cmd : Parse σ Unit) fun _ => Booked P :=
  .modify fun _ holds => commanded cmd _ _ _ holds

theorem makeRaw_booked (makes : Makes P Q .raw) (text : List Char) :
    Ensures (Booked P) (makeRaw text : Parse σ Unit)
      fun _ => Booked fun r created trace => P r created trace ∨ Q r created trace := by
  refine Ensures.get fun p holds => ?_
  have here : ∀ q, q = p → Booked P q := by
    rintro q rfl
    exact holds
  exact .ite (fun _ => (makePacket_booked makes _).weaken here fun _ _ => Or.inr)
    fun _ => .pure fun q same => Or.inl (here q same)

end Primitives

section Alternatives
variable [TokenSource σ] {P Q : Option Result → Nat → Trace → Prop}

/-- `raw` makes nothing where it gives up. -/
theorem grammarRaw_booked (makes : Makes P Q .raw) :
    Ensures (Booked P) (grammarRaw : Parse σ Bool) fun accepted => Booked fun r created trace =>
      P r created trace ∨ accepted = true ∧ Q r created trace := by
  refine ((accept_booked .raw).and_keeps (acceptNoAdvance_booked .hex)).cond ?_
    (.pure fun _ holds => Or.inl holds)
  refine value_booked.bind fun text => (makeRaw_booked makes _).bind fun _ => ?_
  exact advance_booked.bind fun _ => .pure fun _ holds => holds.imp_right fun made => ⟨rfl, made⟩

section Commands
variable (commanded : Commanded P)
include commanded

theorem grammarHelp_booked :
    Ensures (Booked P) (grammarHelp : Parse σ Bool) fun _ => Booked P :=
  (accept_booked .help).cond ((makeCmd_booked commanded _).bind fun _ => .pure fun _ holds => holds)
    (.pure fun _ holds => holds)

theorem grammarShow_booked :
    Ensures (Booked P) (grammarShow : Parse σ Bool) fun _ => Booked P := by
  refine (accept_booked .show).cond ?_ (.pure fun _ holds => holds)
  refine (acceptNoAdvance_booked .status).cond ?_ (.pure fun _ holds => holds)
  exact (makeCmd_booked commanded _).bind fun _ => .pure fun _ holds => holds

theorem grammarCache_booked :
    Ensures (Booked P) (grammarCache : Parse σ Bool) fun _ => Booked P := by
  refine (accept_booked .cache).cond ?_ (.pure fun _ holds => holds)
  refine (acceptNoAdvance_booked .clear).cond ?_ ?_
  · exact (makeCmd_booked commanded _).bind fun _ => .pure fun _ holds => holds
  refine (acceptNoAdvance_booked .show).cond ?_ (.pure fun _ holds => holds)
  refine advance_booked.bind fun _ => ?_
  refine (acceptNoAdvance_booked .number).cond ?_ (.pure fun _ holds => holds)
  refine value_booked.bind fun _ => ?_
  exact (makeCmd_booked commanded _).bind fun _ => .pure fun _ holds => holds

end Commands

theorem grammarClause_booked (written : Written P) (word : Tok)
    (write : Packet → BitVec 16 → Packet) :
    Ensures (Booked P) (grammarClause word write : Parse σ Bool) fun _ => Booked P := by
  refine (accept_booked word).cond ?_ (.pure fun _ holds => holds)
  refine (acceptNoAdvance_booked .number).cond ?_ (.pure fun _ holds => holds)
  refine value_booked.bind fun number => (onPacket_booked written _).bind fun _ => ?_
  exact advance_booked.bind fun _ => .pure fun _ holds => holds

/-- A driving command once its keyword has been read. -/
theorem drive_booked (makes : Makes P Q .dcc) (written : Written Q) (direction : Int) :
    Ensures (Booked P)
      (do
        makePacket .dcc baselinePacketCreate
        if ← (grammarAddr <&&> grammarSpeed) <||> (grammarSpeed <&&> grammarAddr) then
          onPacket setPreamble
          onPacket setSpeedDirectionPreamble
          onPacket (setDirection · direction)
          return true
        else return false : Parse σ Bool) fun _ => Booked Q := by
  have clause := grammarClause_booked (σ := σ) written
  refine (makePacket_booked makes _).bind fun _ => ?_
  refine (((clause _ _).and_keeps (clause _ _)).or_keeps
    ((clause _ _).and_keeps (clause _ _))).cond ?_ (.pure fun _ holds => holds)
  refine (onPacket_booked written _).bind fun _ => (onPacket_booked written _).bind fun _ => ?_
  exact (onPacket_booked written _).bind fun _ => .pure fun _ holds => holds

/-- `stop` once it has been read. -/
theorem stop_booked (makes : Makes P Q .dcc) (written : Written Q) :
    Ensures (Booked P)
      (do
        if ← grammarStopAddr then
          onPacket setSpeedDirectionPreamble
          onPacket (setSpeed · 0)
          return true
        else grammarStopAll : Parse σ Bool) fun _ => Booked Q := by
  have change := onPacket_booked (σ := σ) written
  have head : Ensures (Booked P) (grammarStopAddr : Parse σ Bool) fun _ => Booked Q :=
    (makePacket_booked makes _).bind fun _ => (change _).bind fun _ =>
      grammarClause_booked written _ _
  refine head.cond ?_ ?_
  · exact (change _).bind fun _ => (change _).bind fun _ => .pure fun _ holds => holds
  · exact (accept_booked .all).cond ((change _).bind fun _ => .pure fun _ holds => holds)
      ((change _).bind fun _ => .pure fun _ holds => holds)

end Alternatives

/-! What a parse has made of the books it began with. -/

section Custody

/-- No packet has been made. -/
def Idle (start : Parser σ) (r : Option Result) (created : Nat) (trace : Trace) : Prop :=
  trace = start.trace ∧ created = start.created ∧
    ∃ result, r = some result ∧ result.type ≠ .dcc ∧ result.type ≠ .raw

/-- The newest packet is in the result. -/
def Holding (start : Parser σ) (r : Option Result) (created : Nat) (trace : Trace) : Prop :=
  trace = start.trace ∧ start.created < created ∧
    ∃ type ref, r = some ⟨type, .packet ref⟩ ∧ (type = .dcc ∨ type = .raw) ∧ ref.id + 1 = created

def Custody (start : Parser σ) (r : Option Result) (created : Nat) (trace : Trace) : Prop :=
  Idle start r created trace ∨ Holding start r created trace

variable {start : Parser σ} {r : Option Result} {created : Nat} {trace : Trace}

theorem Idle.written (change : Packet → Packet) (idle : Idle start r created trace) :
    Idle start (r.map (·.write change)) created trace := by
  obtain ⟨untouched, none, ⟨type, payload⟩, rfl, idle⟩ := idle
  refine ⟨untouched, none, _, rfl, ?_⟩
  cases payload <;> exact idle

theorem Holding.written (change : Packet → Packet) (holding : Holding start r created trace) :
    Holding start (r.map (·.write change)) created trace := by
  obtain ⟨untouched, made, type, ref, rfl, kind, newest⟩ := holding
  exact ⟨untouched, made, type, { ref with packet := change ref.packet }, rfl, kind, newest⟩

theorem Custody.written (change : Packet → Packet) (custody : Custody start r created trace) :
    Custody start (r.map (·.write change)) created trace :=
  custody.imp (Idle.written change) (Holding.written change)

theorem Custody.present (custody : Custody start r created trace) :
    trace = start.trace ∧ start.created ≤ created ∧ ∃ result, r = some result := by
  rcases custody with ⟨untouched, none, result, same, -⟩ | ⟨untouched, made, _, _, same, -⟩
  · exact ⟨untouched, none.ge, result, same⟩
  · exact ⟨untouched, made.le, _, same⟩

theorem makes_custody (kind : type = .dcc ∨ type = .raw) :
    Makes (Custody start) (Custody start) type := by
  constructor
  · intro created trace custody
    obtain ⟨-, -, _, none⟩ := custody.present
    contradiction
  · intro r created trace packet custody
    obtain ⟨untouched, older, -⟩ := custody.present
    exact Or.inr ⟨untouched, Nat.lt_succ_of_le older, type, _, rfl, kind, rfl⟩

theorem idle_commanded : Commanded (Idle start) := by
  rintro cmd r created trace ⟨untouched, none, result, rfl, -⟩
  exact ⟨untouched, none, _, rfl, nofun, nofun⟩

variable [TokenSource σ]

theorem grammarDrive_custody (keyword : Tok) (direction : Int) :
    Ensures (Booked (Custody start)) (grammarDrive keyword direction : Parse σ Bool)
      fun _ => Booked (Custody start) :=
  (accept_booked keyword).cond (drive_booked (makes_custody (Or.inl rfl))
    (fun change _ _ _ => Custody.written change) direction) (.pure fun _ custody => custody)

theorem grammarStop_custody :
    Ensures (Booked (Custody start)) (grammarStop : Parse σ Bool)
      fun _ => Booked (Custody start) :=
  (accept_booked .stop).cond (stop_booked (makes_custody (Or.inl rfl))
    fun change _ _ _ => Custody.written change) (.pure fun _ custody => custody)

omit [TokenSource σ] in
/-- The alternatives between `raw` and the driving commands. -/
theorem idle_or {x y : Parse σ Bool}
    (first : Ensures (Booked (Idle start)) x fun _ => Booked (Idle start))
    (second : Ensures (Booked (Idle start)) y fun _ => Booked (Custody start)) :
    Ensures (Booked (Idle start)) (x <||> y) fun _ => Booked (Custody start) := by
  refine Ensures.or (R := Booked (Idle start)) (first.weaken (fun _ idle => idle) ?_) second
  intro accepted p idle
  cases accepted with
  | true => exact Or.inl idle
  | false => exact idle

theorem parse_custody : Ensures (Booked (Idle start)) (parse : Parse σ Bool)
    fun _ => Booked (Custody start) := by
  have moves : Ensures (Booked (Custody start))
      (grammarForward <||> (grammarReverse <||> grammarStop) : Parse σ Bool)
      fun _ => Booked (Custody start) :=
    (grammarDrive_custody _ _).or_keeps ((grammarDrive_custody _ _).or_keeps grammarStop_custody)
  have later : Ensures (Booked (Idle start)) _ fun _ => Booked (Custody start) :=
    idle_or (grammarHelp_booked idle_commanded) <| idle_or (grammarShow_booked idle_commanded) <|
      idle_or (grammarCache_booked idle_commanded) <|
      moves.weaken (fun _ idle => Or.inl idle) fun _ _ custody => custody
  simp only [parse, parseBeforeStop, orM_assoc]
  have makes : Makes (Idle start) (Custody start) .raw :=
    ⟨fun _ _ idle => (makes_custody (Or.inr rfl)).present _ _ (Or.inl idle),
      fun _ _ _ _ idle => (makes_custody (Or.inr rfl)).packet _ _ _ _ (Or.inl idle)⟩
  refine Ensures.or (R := Booked (Idle start)) ((grammarRaw_booked makes).weaken
    (fun _ idle => idle) fun accepted _ attempted => ?_) later
  cases accepted with
  | true => exact attempted.elim Or.inl And.right
  | false => exact attempted.elim id fun wrong => absurd wrong.1 Bool.false_ne_true

end Custody

/-! The end of the call. -/

section Call
variable {start : Parser σ}

/-- The result is gone, and its packet with it. -/
def Discarded (start : Parser σ) (r : Option Result) (created : Nat) (trace : Trace) : Prop :=
  r = none ∧ (trace = start.trace ∧ created = start.created ∨
    ∃ ref, trace = packetDestroy ref start.trace ∧ start.created < created ∧ ref.id + 1 = created)

theorem trash_discards {p : Parser σ} (custody : Booked (Custody start) p) :
    Booked (Discarded start) p.trash ∧ p.trash.created = p.created := by
  rcases custody with ⟨untouched, none, ⟨type, payload⟩, same, noDcc, noRaw⟩ |
    ⟨untouched, made, type, ref, same, kind, newest⟩
  · have trashed : p.trash = { p with result := Option.none } := by
      rw [trash, same]
      cases type <;> first | rfl | contradiction
    rw [trashed]
    exact ⟨⟨rfl, Or.inl ⟨untouched, none⟩⟩, rfl⟩
  · have trashed : p.trash =
        { p with trace := packetDestroy ref p.trace, result := Option.none } := by
      rw [trash, same]
      rcases kind with rfl | rfl <;> rfl
    rw [trashed]
    exact ⟨⟨rfl, Or.inr ⟨ref, by rw [untouched], made, newest⟩⟩, rfl⟩

theorem finishPacket_booked {P : Option Result → Nat → Trace → Prop} (written : Written P) :
    Ensures (Booked P) (finishPacket : Parse σ Bool)
      fun accepted p => accepted = true ∧ Booked P p := by
  refine Ensures.get fun p holds => ?_
  have here : ∀ q, q = p → Booked P q := by
    rintro q rfl
    exact holds
  have done : Ensures (fun q => q = p) (pure true : Parse σ Bool)
      fun accepted q => accepted = true ∧ Booked P q := .pure fun q same => ⟨rfl, here q same⟩
  have finish : Ensures (fun q => q = p)
      (do onPacket setChecksum; onPacket setPacketEnd; return true : Parse σ Bool)
      fun accepted q => accepted = true ∧ Booked P q :=
    ((onPacket_booked written _).weaken here fun _ _ holds => holds).bind fun _ =>
      (onPacket_booked written _).bind fun _ => .pure fun _ holds => ⟨rfl, holds⟩
  cases p.result with
  | none => exact .throw
  | some r =>
    obtain ⟨type, payload⟩ := r
    cases type with
    | dcc => exact finish
    | undef | sys | raw => exact done

variable [TokenSource σ]

theorem parseError_discards (memory : Option Bool) (n : Nat) :
    Ensures (Booked fun r created trace => Custody start r created trace ∧ created = n)
      (parseError memory : Parse σ Bool)
      fun accepted p => accepted = false ∧ Booked (Discarded start) p ∧ p.created = n := by
  let before := Booked (σ := σ) fun r created trace => Custody start r created trace ∧ created = n
  refine Ensures.bind (R := fun _ => before) (.modify fun _ holds => holds) fun _ => ?_
  refine Ensures.get fun p holds => .ite (fun _ => .throw) fun _ => ?_
  have trashes : Ensures (fun q => q = p) (modify trash : Parse σ Unit)
      fun _ q => Booked (Discarded start) q ∧ q.created = n := by
    refine .modify ?_
    rintro q rfl
    obtain ⟨custody, rfl⟩ := holds
    exact trash_discards custody
  exact trashes.bind fun _ => .pure fun _ discarded => ⟨rfl, discarded⟩

/-- The books at the end of the call. -/
abbrev Settled (start : Parser σ) (accepted : Bool) : Parser σ → Prop :=
  Booked (if accepted then Custody start else Discarded start)

theorem parserStart_settled {null : Bool} {p next : Parser σ}
    (returned : parserStart (some null) p = .ok (accepted, next)) :
    ∃ parsed, parseCommand (some null) p = .ok (accepted, parsed) ∧
      next.created = parsed.created ∧ Settled p accepted next := by
  obtain ⟨verdict, parsed, command, later⟩ := bind_ok returned
  have tokens : parseTokens (prepare (some null) p) = .ok (verdict, parsed) := command
  obtain ⟨⟨⟩, opened, first, second⟩ := bind_ok tokens
  have idle : Booked (Idle p) opened :=
    advance_booked (prepare (some null) p) () opened ⟨rfl, rfl, _, rfl, nofun, nofun⟩ first
  have custody := parse_custody opened verdict parsed idle second
  cases verdict with
  | true =>
    obtain ⟨rfl, settled, kept⟩ := finishPacket_booked
      (P := fun r created trace => Custody p r created trace ∧ created = parsed.created)
      (fun change _ _ _ holds => ⟨holds.1.written change, holds.2⟩) parsed accepted next
      ⟨custody, rfl⟩ later
    exact ⟨parsed, command, kept, settled⟩
  | false =>
    obtain ⟨rfl, settled, kept⟩ := parseError_discards (some null) parsed.created parsed accepted next
      ⟨custody, rfl⟩ later
    exact ⟨parsed, command, kept, settled⟩

end Call

/-! Leaks are packets made before the newest. -/

section Leaks
variable {start next : Parser σ}

theorem remaining_untouched (untouched : next.trace = start.trace) :
    remaining start next = List.range' start.created (next.created - start.created) := by
  have none : destroyedSince start next = [] := by simp [destroyedSince, untouched]
  simp [remaining, none]

theorem remaining_destroyed {ref : PacketRef} (destroyed : next.trace = packetDestroy ref start.trace)
    (made : start.created < next.created) (newest : ref.id + 1 = next.created) :
    remaining start next = List.range' start.created (next.created - start.created - 1) := by
  have one : destroyedSince start next = [ref.id] := by
    simp [destroyedSince, destroyed, packetDestroy]
  have last : next.created - start.created = next.created - start.created - 1 + 1 := by omega
  have others : (List.range' start.created (next.created - start.created - 1)).filter (· ∉ [ref.id]) =
      List.range' start.created (next.created - start.created - 1) := by
    apply List.filter_eq_self.mpr
    intro id member
    have range := List.mem_range'_1.mp member
    simp only [List.mem_singleton, decide_eq_true_eq]
    omega
  have top : start.created + (next.created - start.created - 1) = ref.id := by omega
  rw [remaining, one, last, List.range'_concat, List.filter_append, Nat.one_mul, top, others]
  simp

theorem remaining_none (untouched : next.trace = start.trace) (none : next.created = start.created) :
    remaining start next = [] := by
  rw [remaining_untouched untouched, none, Nat.sub_self]
  rfl

theorem idle_noLeak (idle : Booked (Idle start) next) : NoLeak start true next := by
  obtain ⟨untouched, none, result, same, noDcc, noRaw⟩ := idle
  constructor
  · exact nofun
  · intro _ type payload given kind
    rw [same] at given
    cases given
    exact absurd kind (not_or.mpr ⟨noDcc, noRaw⟩)
  · intro _ _ _
    exact remaining_none untouched none

/-- The packet handed over is the newest, so it must be the only one. -/
theorem holding_noLeak_iff (holding : Booked (Holding start) next) :
    NoLeak start true next ↔ next.created ≤ start.created + 1 := by
  obtain ⟨untouched, made, type, ref, same, kind, newest⟩ := holding
  have held := remaining_untouched untouched
  constructor
  · intro tight
    obtain ⟨_, -, one⟩ := tight.packet rfl type _ same kind
    have length := congrArg List.length (held.symm.trans one)
    rw [List.length_range', List.length_singleton] at length
    omega
  · intro few
    have one : next.created - start.created = 1 := by omega
    have first : start.created = ref.id := by omega
    rw [one, first] at held
    constructor
    · exact nofun
    · intro _ type' payload given _
      rw [same] at given
      cases given
      exact ⟨ref, rfl, held⟩
    · intro _ payload given
      rw [same] at given
      cases given
      exact absurd kind (by simp)

theorem discarded_noLeak_iff (discarded : Booked (Discarded start) next) :
    NoLeak start false next ↔ next.created ≤ start.created + 1 := by
  obtain ⟨gone, ⟨untouched, none⟩ | ⟨ref, destroyed, made, newest⟩⟩ := discarded
  · have nothing := remaining_none untouched none
    exact iff_of_true ⟨fun _ => ⟨nothing, gone⟩, nofun, nofun⟩ (none.le.trans (Nat.le_succ _))
  · have held := remaining_destroyed destroyed made newest
    constructor
    · intro tight
      have length := congrArg List.length (held.symm.trans (tight.error rfl).1)
      rw [List.length_range', List.length_nil] at length
      omega
    · intro few
      have one : next.created - start.created - 1 = 0 := by omega
      rw [one] at held
      exact ⟨fun _ => ⟨held, gone⟩, nofun, nofun⟩

theorem noLeak_iff (settled : Settled start accepted next) :
    NoLeak start accepted next ↔ next.created ≤ start.created + 1 := by
  cases accepted with
  | true =>
    rcases settled with idle | holding
    · have none : next.created = start.created := idle.2.1
      exact iff_of_true (idle_noLeak idle) (none.le.trans (Nat.le_succ _))
    · exact holding_noLeak_iff holding
  | false => exact discarded_noLeak_iff settled

end Leaks
end Freedcc.Parser
