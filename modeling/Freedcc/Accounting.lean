import Freedcc.Erasure
import Freedcc.GrammarCalls

/-! The books of a whole run: every byte from the host is given back once or thrown
away with a parse error, everything else on the terminal is a reply, and the
counters of sys.c count the replies. -/
namespace Freedcc
open PartialProgram Scanner Freedcc.Parser Reader

namespace Desk
variable {δ : Type} [Stdin δ]

/-- A property that characters read and put back leave as it is. -/
structure Lasts (I : δ → Prop) : Prop where
  getchar : ∀ s c s', I s → Stdin.getchar s = .ok (c, s') → I s'
  ungetc : ∀ c s, I s → I (Stdin.ungetc c s)

variable {I : δ → Prop} {p next : Parser (Scanner δ)} {null : Bool}

def Itself (I : δ → Prop) (s t : δ) : Prop := s = t ∧ I s

theorem Lasts.feeds (lasts : Lasts I) : Feeds (Itself I) (Itself I) := by
  constructor
  · exact fun _ _ same => same
  · rintro s _ c s' ⟨rfl, holds⟩ read
    exact ⟨s', read, rfl, lasts.getchar s c s' holds read⟩
  · rintro c s _ ⟨rfl, holds⟩
    exact ⟨rfl, lasts.ungetc c s holds⟩
  · rintro s _ ⟨rfl, -⟩
    exact covers_of_le (Nat.le_refl _) _

theorem Lasts.back (lasts : Lasts I) : Feeds (flip (Itself I)) (flip (Itself I)) := by
  constructor
  · exact fun _ _ same => same
  · rintro s _ c s' ⟨rfl, holds⟩ read
    exact ⟨s', read, rfl, lasts.getchar _ c s' holds read⟩
  · rintro c s _ ⟨rfl, holds⟩
    exact ⟨rfl, lasts.ungetc c _ holds⟩
  · rintro s _ ⟨rfl, -⟩
    exact covers_of_le (Nat.le_refl _) _

omit [Stdin δ] in
/-- A parser beside itself. -/
theorem twins_self (holds : I p.scanner.stdin) :
    Twins (Itself I) p.scanner.flush p.scanner.flush p p := by
  refine ⟨⟨⟨⟨rfl, holds⟩, rfl, rfl, rfl⟩, ⟨rfl, holds⟩, rfl, rfl, rfl⟩, rfl, ?_, rfl⟩
  cases p.result with
  | none => rfl
  | some r => exact congrArg some r.renumber_zero.symm

omit [Stdin δ] in
/-- What simulates itself keeps the property, and the way to flush. -/
theorem lasts_of_simulates {x : Parse (Scanner δ) α} (simulates : ∀ flush,
      Simulates (Twins (Itself I) flush flush) x x)
    (returned : x p = .ok (a, next)) (holds : I p.scanner.stdin) :
    I next.scanner.stdin ∧ next.scanner.flush = p.scanner.flush := by
  obtain ⟨q, same, twins⟩ := simulates p.scanner.flush p p a next (twins_self holds) returned
  exact ⟨twins.scanner.1.stdin.2, twins.scanner.2.flush⟩

theorem Lasts.opening (lasts : Lasts I) (returned : opening p = .ok (b, next))
    (holds : I p.scanner.stdin) : I next.scanner.stdin ∧ next.scanner.flush = p.scanner.flush :=
  lasts_of_simulates (fun _ => opening_twins lasts.feeds lasts.back) returned holds

theorem Lasts.parseCommand (lasts : Lasts I)
    (returned : parseCommand (some null) p = .ok (b, next)) (holds : I p.scanner.stdin) :
    I next.scanner.stdin ∧ next.scanner.flush = p.scanner.flush :=
  lasts_of_simulates (fun _ => parseCommand_twins lasts.feeds lasts.back null) returned holds

omit [Stdin δ] in
theorem finishPacket_true {p next : Parser (Scanner δ)} (finished : finishPacket p = .ok (b, next)) :
    b = true := by
  rw [Grammar.finishPacket_eq] at finished
  cases made : p.result with
  | none =>
    rw [made] at finished
    contradiction
  | some r =>
    obtain ⟨type, payload⟩ := r
    rw [made] at finished
    cases type with
    | dcc =>
      cases finished
      rfl
    | undef | sys | raw => exact (pure_ok.mp finished).1.symm

/-- A parse error flushes, and nothing else does. -/
theorem Lasts.answering (lasts : Lasts I) (read : answering null p = .ok (reading, next))
    (holds : I p.scanner.stdin) : next.scanner.flush = p.scanner.flush ∧
      (reading ≠ .rejected ∧ I next.scanner.stdin ∨
        reading = .rejected ∧ ∃ stdin, I stdin ∧ next.scanner.stdin = p.scanner.flush stdin) := by
  obtain ⟨begun, called, opened, read⟩ := bind_ok read
  obtain ⟨kept, same⟩ := lasts.opening opened holds
  cases begun with
  | false =>
    obtain ⟨rfl, rfl⟩ := pure_ok.mp read
    exact ⟨same, Or.inl ⟨by simp, kept⟩⟩
  | true =>
    obtain ⟨accepted, parsed, started, read⟩ := bind_ok read
    obtain ⟨good, commanded, command, started⟩ := bind_ok started
    obtain ⟨held, flush⟩ := lasts.parseCommand command kept
    cases good with
    | true =>
      have finished : I parsed.scanner.stdin ∧ parsed.scanner.flush = commanded.scanner.flush :=
        lasts_of_simulates (fun _ => finishPacket_simulates) started held
      obtain rfl := finishPacket_true started
      obtain ⟨_, _, here, read⟩ := bind_ok read
      obtain ⟨rfl, rfl⟩ := get_ok.mp here
      obtain ⟨rfl, rfl⟩ := pure_ok.mp read
      exact ⟨finished.2.trans (flush.trans same), Or.inl ⟨by simp, finished.1⟩⟩
    | false =>
      obtain ⟨next', failed, scanner, -⟩ := Grammar.parseError_total null commanded
      obtain ⟨rfl, rfl⟩ := Prod.mk.inj (Except.ok.inj (failed.symm.trans started))
      obtain ⟨rfl, rfl⟩ := pure_ok.mp read
      refine ⟨?_, Or.inr ⟨rfl, commanded.scanner.stdin, held, ?_⟩⟩
      · rw [scanner]
        exact flush.trans same
      · rw [scanner]
        change commanded.scanner.flush commanded.scanner.stdin = _
        rw [flush, same]

end Desk

theorem Terminal.lasts_echoes (t : Terminal) : Desk.Lasts (Terminal.Echoes t) :=
  ⟨fun _ _ _ echoed read => echoed.trans (Terminal.getchar_echoes read),
    fun c _ echoed => echoed.trans (Terminal.ungetc_echoes c _)⟩

namespace Desk
open Terminal

/-- The bytes that a call takes are given back; those it drops go with a parse error. -/
theorem read_takes {desk next : Desk} (device : desk.scanner.flush = Terminal.flush)
    (read : Desk.read null desk = .ok (reading, next)) :
    ∃ taken dropped, (∀ rx ∈ taken, Clean rx) ∧
      desk.scanner.stdin.io.wire = taken ++ dropped ++ next.scanner.stdin.io.wire ∧
      next.scanner.stdin.printed = desk.scanner.stdin.printed ++ echo taken ∧
      (reading ≠ .rejected → dropped = []) ∧ (reading = .nothing → taken = []) ∧
      next.scanner.flush = Terminal.flush := by
  by_cases waiting : 0 < desk.scanner.stdin.io.arrived
  · rw [read_waiting waiting] at read
    have busy : reading ≠ .nothing := by
      rintro rfl
      cases answering_ok.mp read
    obtain ⟨same, kept | flushed⟩ := (Terminal.lasts_echoes desk.scanner.stdin).answering read (.refl _)
    · obtain ⟨accepted, taken, clean, wire, printed⟩ := kept
      refine ⟨taken, [], clean, ?_, printed, fun _ => rfl, fun idle => absurd idle busy,
        same.trans device⟩
      rw [List.append_nil]
      exact wire
    · obtain ⟨rejected, stdin, ⟨taken, clean, wire, printed⟩, last⟩ := flushed
      rw [device] at last
      refine ⟨taken, stdin.io.wire.take stdin.io.arrived, clean, ?_, ?_,
        fun other => absurd rejected other, fun idle => absurd idle busy, same.trans device⟩
      · rw [last, wire, List.append_assoc]
        exact congrArg (taken ++ ·) (List.take_append_drop _ _).symm
      · rw [last]
        exact printed
  · rw [read_idle waiting] at read
    cases read
    exact ⟨[], [], by simp, rfl, (List.append_nil _).symm, fun _ => rfl, fun _ => rfl, device⟩

end Desk

namespace CommandStation
open Terminal

/-- What a call of `IO_read` has taken from the line and answered; or the end of a
`cache clear`, which is no call. -/
structure Turn where
  taken : List Rx
  dropped : List Rx
  reading : Option Desk.Reading
  reply : List Char

namespace Turn

def packet (turn : Turn) : Option Dcc.PacketRef :=
  match turn.reading with
  | some (.accepted (some ⟨.raw, .packet ref⟩)) => some ref
  | some (.accepted (some ⟨.dcc, .packet ref⟩)) => some ref
  | _ => none

def cmd (turn : Turn) : Option SysCmd :=
  match turn.reading with
  | some (.accepted (some ⟨.sys, .cmd cmd⟩)) => some cmd
  | _ => none

def rejected (turn : Turn) : Bool := turn.reading = some .rejected

def accepted (turn : Turn) : Bool :=
  match turn.reading with
  | some (.accepted _) => true
  | _ => false

/-- A packet is told with `ok`, a command with what it prints, and each with the prompt
after it; `cache clear` is told when it is over. -/
inductive Proper (turn : Turn) : Prop where
  | blank (read : turn.reading = some .blank) (told : turn.reply = prompt)
  | rejected (read : turn.reading = some .rejected)
      (told : turn.reply = "parse error\n\n".toList ++ prompt)
  | packet (handed : turn.packet = some ref) (told : turn.reply = "ok\n\n".toList ++ prompt)
  | report (called : turn.cmd = some ran) (other : ran.type ≠ .cacheClear)
      (told : turn.reply = text ++ "\n\n".toList ++ prompt)
  | clear (called : turn.cmd = some ran) (kind : ran.type = .cacheClear) (told : turn.reply = [])
  | cleared (noCall : turn.reading = none) (nothing : turn.taken = [])
      (told : turn.reply = Sys.cmdCacheClear count ++ prompt)
  /-- Nothing is done with an accepted result. -/
  | mute (read : turn.accepted = true) (noPacket : turn.packet = none)
      (noCall : ∀ called ∈ turn.cmd, called = ⟨.cacheShow, none⟩) (told : turn.reply = prompt)

end Turn

/-- The line from the host, the terminal and the counters against a list of turns. -/
structure Books (wire : List Rx) (turns : List Turn) (s : CommandStation) : Prop where
  proper : ∀ turn ∈ turns, turn.Proper
  clean : ∀ turn ∈ turns, ∀ rx ∈ turn.taken, Clean rx
  flushed : ∀ turn ∈ turns, turn.dropped ≠ [] → turn.reading = some .rejected
  bytes : wire = turns.flatMap (fun turn => turn.taken ++ turn.dropped) ++
    s.desk.scanner.stdin.io.wire
  screen : s.desk.scanner.stdin.printed =
    turns.flatMap fun turn => echo turn.taken ++ crlf turn.reply
  parseErr : s.sys.parseErrCount = BitVec.ofNat 16 (turns.countP Turn.rejected)
  parseOk : s.sys.parseOkCount = BitVec.ofNat 16 (turns.countP Turn.accepted)
  sysCmd : s.sys.sysCmdCount = BitVec.ofNat 16 (turns.filterMap Turn.cmd).length
  tx : s.sys.txCount = BitVec.ofNat 16 (turns.filterMap Turn.packet).length
  txBytes : s.sys.txBytesCount =
    BitVec.ofNat 16 ((turns.filterMap Turn.packet).map (·.packet.size)).sum

variable {platform : Platform} {s : CommandStation} {wire : List Rx} {turns : List Turn}

structure Counts (sys : Sys) (turn : Turn) (next : Sys) : Prop where
  parseErr : next.parseErrCount = sys.parseErrCount + BitVec.ofNat 16 turn.rejected.toNat
  parseOk : next.parseOkCount = sys.parseOkCount + BitVec.ofNat 16 turn.accepted.toNat
  sysCmd : next.sysCmdCount = sys.sysCmdCount + BitVec.ofNat 16 turn.cmd.toList.length
  tx : next.txCount = sys.txCount + BitVec.ofNat 16 turn.packet.toList.length
  txBytes : next.txBytesCount =
    sys.txBytesCount + BitVec.ofNat 16 (turn.packet.toList.map (·.packet.size)).sum

/-- What a step does to the books when it ends a turn. -/
structure Entry (s : CommandStation) (turn : Turn) (next : CommandStation) : Prop where
  proper : turn.Proper
  clean : ∀ rx ∈ turn.taken, Clean rx
  flushed : turn.dropped ≠ [] → turn.reading = some .rejected
  bytes : s.desk.scanner.stdin.io.wire =
    turn.taken ++ turn.dropped ++ next.desk.scanner.stdin.io.wire
  screen : next.desk.scanner.stdin.printed =
    s.desk.scanner.stdin.printed ++ (echo turn.taken ++ crlf turn.reply)
  counts : Counts s.sys turn next.sys

theorem Books.enter (books : Books wire turns s) (entry : Entry s turn next) :
    Books wire (turns ++ [turn]) next := by
  have last {P : Turn → Prop} (all : ∀ t ∈ turns, P t) (holds : P turn) :
      ∀ t ∈ turns ++ [turn], P t :=
    List.forall_mem_append.mpr ⟨all, List.forall_mem_singleton.mpr holds⟩
  have packets : (turns ++ [turn]).filterMap Turn.packet =
      turns.filterMap Turn.packet ++ turn.packet.toList := by
    rw [List.filterMap_append]
    cases given : turn.packet <;> simp [given]
  have cmds : (turns ++ [turn]).filterMap Turn.cmd = turns.filterMap Turn.cmd ++ turn.cmd.toList := by
    rw [List.filterMap_append]
    cases given : turn.cmd <;> simp [given]
  have counts (p : Turn → Bool) : (turns ++ [turn]).countP p = turns.countP p + (p turn).toNat := by
    rw [List.countP_append]
    cases given : p turn <;> simp [given]
  constructor
  · exact last books.proper entry.proper
  · exact last books.clean entry.clean
  · exact last books.flushed entry.flushed
  · rw [books.bytes, entry.bytes, List.flatMap_append, List.flatMap_singleton, ← List.append_assoc]
  · rw [entry.screen, books.screen, List.flatMap_append, List.flatMap_singleton]
  · rw [entry.counts.parseErr, books.parseErr, counts, BitVec.ofNat_add]
  · rw [entry.counts.parseOk, books.parseOk, counts, BitVec.ofNat_add]
  · rw [entry.counts.sysCmd, books.sysCmd, cmds, List.length_append, BitVec.ofNat_add]
  · rw [entry.counts.tx, books.tx, packets, List.length_append, BitVec.ofNat_add]
  · rw [entry.counts.txBytes, books.txBytes, packets, List.map_append, List.sum_append, BitVec.ofNat_add]

theorem print_print (text more : List Char) (desk : Desk) :
    (desk.print text).print more = desk.print (text ++ more) := by
  simp [Desk.print, Terminal.print]

/-- The text of a command ends with an empty line. -/
def Paragraph (text : List Char) : Prop := "\n\n".toList <:+ text

theorem paragraph_cmdStatus (memFree : BitVec 16) (sys : Sys) (cacheUsed : BitVec 16) :
    Paragraph (Sys.cmdStatus platform memFree sys cacheUsed) := by
  have last : "\n\n".toList <:+ "%\n\n".toList := by decide
  exact last.trans (List.suffix_append _ _)

theorem paragraph_cmdHelp : Paragraph Sys.cmdHelp := by
  unfold Paragraph
  decide

theorem paragraph_cmdCacheShow (cache : Cache) (address : BitVec 16) :
    Paragraph (Sys.cmdCacheShow cache address) := by
  unfold Sys.cmdCacheShow
  split
  · exact List.suffix_append _ _
  · exact List.suffix_append _ _

variable (platform) in
/-- What `cmd->call` prints; for `cache clear` nothing, until it is over. -/
theorem call_replies (memFree : BitVec 16) (cmd : SysCmd) (s : CommandStation) :
    ∃ reply, (s.call platform memFree cmd).1.desk = s.desk.print reply ∧
      (s.call platform memFree cmd).1.sys = s.sys ∧
      (cmd.type ≠ .cacheClear ∧ (∃ text, reply = text ++ "\n\n".toList ++ prompt) ∨
        cmd.type = .cacheClear ∧ reply = [] ∨ cmd = ⟨.cacheShow, none⟩ ∧ reply = prompt) := by
  obtain ⟨type, args⟩ := cmd
  have printed (text : List Char) : ((s.print text).print prompt).desk =
      s.desk.print (text ++ prompt) := print_print text prompt s.desk
  have ends {text : List Char} (paragraph : Paragraph text) :
      ∃ body, text ++ prompt = body ++ "\n\n".toList ++ prompt := by
    obtain ⟨body, rfl⟩ := paragraph
    exact ⟨body, rfl⟩
  cases type with
  | status =>
    exact ⟨_, printed _, rfl, Or.inl ⟨by simp, ends (paragraph_cmdStatus memFree _ _)⟩⟩
  | help => exact ⟨_, printed _, rfl, Or.inl ⟨by simp, ends paragraph_cmdHelp⟩⟩
  | cacheClear =>
    refine ⟨[], ?_, rfl, Or.inr (Or.inl ⟨rfl, rfl⟩)⟩
    simp [call, Desk.print, Terminal.print, crlf]
  | cacheShow =>
    cases args with
    | none => exact ⟨prompt, rfl, rfl, Or.inr (Or.inr ⟨rfl, rfl⟩)⟩
    | some address =>
      exact ⟨_, printed _, rfl, Or.inl ⟨by simp, ends (paragraph_cmdCacheShow _ _)⟩⟩

section Answers
variable {desk : Desk} {null : Bool} {reading : Desk.Reading} {next : CommandStation} {result : Result}

/-- The entry of a call, from the bytes it takes and the reply. -/
theorem entry_of_reply (read : Desk.read null s.desk = .ok (reading, desk))
    (device : s.desk.scanner.flush = Terminal.flush)
    (printed : next.desk = desk.print reply)
    (proper : ∀ taken dropped, Turn.Proper ⟨taken, dropped, some reading, reply⟩)
    (counted : ∀ taken dropped, Counts s.sys ⟨taken, dropped, some reading, reply⟩ next.sys) :
    ∃ turn, Entry s turn next ∧ next.desk.scanner.flush = Terminal.flush := by
  obtain ⟨taken, dropped, clean, wire, echoed, flushed, -, device⟩ := Desk.read_takes device read
  refine ⟨⟨taken, dropped, some reading, reply⟩, ⟨proper _ _, clean, ?_, ?_, ?_, counted _ _⟩, ?_⟩
  · intro some
    by_contra other
    exact some (flushed fun same => other (congrArg Option.some same))
  · rw [wire, printed]
    rfl
  · rw [printed, ← List.append_assoc, ← echoed]
    rfl
  · rw [printed]
    exact device

variable (platform) in
/-- A packet is handed over. -/
theorem packet_entry (read : Desk.read null s.desk = .ok (.accepted (some result), desk))
    (device : s.desk.scanner.flush = Terminal.flush) (memFree : BitVec 16)
    (kind : result.type = .raw ∨ result.type = .dcc) (payload : result.payload = .packet ref) :
    ∃ turn, Entry s turn (answer platform memFree (.accepted (some result)) { s with desk }).1 ∧
      (answer platform memFree (.accepted (some result)) { s with desk }).1.desk.scanner.flush =
        Terminal.flush := by
  obtain ⟨type, payload⟩ := result
  simp only at kind payload
  subst payload
  rcases kind with rfl | rfl <;>
  · have printed : ((desk.print "ok\n\n".toList).print prompt) =
        desk.print ("ok\n\n".toList ++ prompt) := print_print _ _ desk
    refine entry_of_reply read device printed ?_ ?_
    · exact fun _ _ => .packet rfl rfl
    · intro _ _
      constructor <;>
      simp [answer, account, addPacket, CommandStation.print, Sys.processDccTx,
        Sys.parseOkIncrement, Turn.rejected, Turn.accepted, Turn.cmd, Turn.packet]

variable (platform) in
/-- A command is called. -/
theorem call_entry (read : Desk.read null s.desk = .ok (.accepted (some ⟨.sys, .cmd cmd⟩), desk))
    (device : s.desk.scanner.flush = Terminal.flush) (memFree : BitVec 16) :
    ∃ turn, Entry s turn
        (answer platform memFree (.accepted (some ⟨.sys, .cmd cmd⟩)) { s with desk }).1 ∧
      (answer platform memFree (.accepted (some ⟨.sys, .cmd cmd⟩)) { s with desk }).1.desk.scanner.flush =
        Terminal.flush := by
  obtain ⟨reply, printed, sys, told⟩ := call_replies platform memFree cmd
    (({ s with desk } : CommandStation).account Sys.parseOkIncrement |>.account Sys.processSysCmd)
  apply entry_of_reply read device printed
  · intro taken dropped
    rcases told with ⟨other, text, rfl⟩ | ⟨kind, rfl⟩ | ⟨rfl, rfl⟩
    · exact .report rfl other rfl
    · exact .clear rfl kind rfl
    · exact .mute rfl rfl (by simp [Turn.cmd]) rfl
  · intro _ _
    rw [sys]
    constructor <;>
    simp [account, Sys.processSysCmd, Sys.parseOkIncrement, Turn.rejected, Turn.accepted, Turn.cmd,
      Turn.packet]

theorem Turn.packet_ignored {result : Option Result} {taken dropped : List Rx} {reply : List Char}
    (ignored : result.bind Result.outcome = none) :
    Turn.packet ⟨taken, dropped, some (.accepted result), reply⟩ = none := by
  unfold Turn.packet
  split
  · next same =>
    cases same
    contradiction
  · next same =>
    cases same
    contradiction
  · rfl

theorem Turn.cmd_ignored {result : Option Result} {taken dropped : List Rx} {reply : List Char}
    (ignored : result.bind Result.outcome = none) :
    Turn.cmd ⟨taken, dropped, some (.accepted result), reply⟩ = none := by
  unfold Turn.cmd
  split
  · next same =>
    cases same
    contradiction
  · rfl

/-- Nothing is done with a result of another kind. -/
theorem mute_entry {result : Option Result}
    (read : Desk.read null s.desk = .ok (.accepted result, desk))
    (device : s.desk.scanner.flush = Terminal.flush) (ignored : result.bind Result.outcome = none) :
    ∃ turn, Entry s turn ((({ s with desk } : CommandStation).account Sys.parseOkIncrement).print prompt) ∧
      (desk.print prompt).scanner.flush = Terminal.flush := by
  apply entry_of_reply read device rfl
  · exact fun _ _ => .mute rfl (Turn.packet_ignored ignored) (by simp [Turn.cmd_ignored ignored]) rfl
  · intro _ _
    constructor <;>
    simp [account, CommandStation.print, Sys.parseOkIncrement, Turn.rejected, Turn.accepted,
      Turn.packet_ignored ignored, Turn.cmd_ignored ignored]

variable (platform) in
theorem read_entry (read : Desk.read null s.desk = .ok (reading, desk)) (busy : reading ≠ .nothing)
    (device : s.desk.scanner.flush = Terminal.flush) (memFree : BitVec 16) :
    ∃ turn, Entry s turn (answer platform memFree reading { s with desk }).1 ∧
      (answer platform memFree reading { s with desk }).1.desk.scanner.flush = Terminal.flush := by
  have obeyed := obeyed platform memFree reading { s with desk }
  generalize answer platform memFree reading { s with desk } = next at obeyed ⊢
  cases obeyed with
  | nothing => exact absurd rfl busy
  | blank =>
    apply entry_of_reply read device rfl
    · exact fun _ _ => .blank rfl rfl
    · intro _ _
      constructor <;>
      simp [CommandStation.print, Turn.rejected, Turn.accepted, Turn.cmd, Turn.packet]
  | rejected =>
    have printed : (desk.print "parse error\n\n".toList).print prompt =
        desk.print ("parse error\n\n".toList ++ prompt) := print_print _ _ desk
    apply entry_of_reply read device printed
    · exact fun _ _ => .rejected rfl rfl
    · intro _ _
      constructor <;>
      simp [account, CommandStation.print, Sys.parseErrIncrement, Turn.rejected,
        Turn.accepted, Turn.cmd, Turn.packet]
  | packet type ref kind =>
    rcases kind with rfl | rfl
    · exact packet_entry platform read device memFree (Or.inl rfl) rfl
    · exact packet_entry platform read device memFree (Or.inr rfl) rfl
  | cmd cmd => exact call_entry platform read device memFree
  | mute result ignored => exact mute_entry read device ignored

end Answers

theorem Books.same (books : Books wire turns s) (desk : next.desk.scanner.stdin.io.wire =
      s.desk.scanner.stdin.io.wire ∧ next.desk.scanner.stdin.printed = s.desk.scanner.stdin.printed)
    (sys : next.sys = s.sys) : Books wire turns next := by
  constructor
  · exact books.proper
  · exact books.clean
  · exact books.flushed
  · rw [desk.1]
    exact books.bytes
  · rw [desk.2]
    exact books.screen
  · rw [sys]
    exact books.parseErr
  · rw [sys]
    exact books.parseOk
  · rw [sys]
    exact books.sysCmd
  · rw [sys]
    exact books.tx
  · rw [sys]
    exact books.txBytes

variable (platform) in
/-- A step ends at most one turn. -/
theorem step_books (op : Op) (books : Books wire turns s)
    (device : s.desk.scanner.flush = Terminal.flush) :
    ∃ turns', turns <+: turns' ∧ Books wire turns' (s.step platform op).1 ∧
      (s.step platform op).1.desk.scanner.flush = Terminal.flush := by
  have quiet (same : (s.step platform op).1.desk = s.desk) (sys : (s.step platform op).1.sys = s.sys) :
      ∃ turns', turns <+: turns' ∧ Books wire turns' (s.step platform op).1 ∧
        (s.step platform op).1.desk.scanner.flush = Terminal.flush := by
    refine ⟨turns, List.prefix_refl _, books.same ?_ sys, ?_⟩
    · rw [same]
      exact ⟨rfl, rfl⟩
    · rw [same]
      exact device
  cases op with
  | receive => exact ⟨turns, List.prefix_refl _, books.same ⟨rfl, rfl⟩ rfl, device⟩
  | timer0 late => exact quiet rfl rfl
  | timer1 pind => exact quiet rfl rfl
  | read null memFree =>
    have step := step_read platform memFree null s
    generalize s.step platform (.read null memFree) = next at step quiet ⊢
    cases step with
    | busy | stuck => exact quiet rfl rfl
    | @answers reading desk free read =>
      by_cases idle : reading = .nothing
      · subst idle
        obtain ⟨taken, dropped, -, wire, printed, drops, takes, flush⟩ := Desk.read_takes device read
        obtain rfl := takes rfl
        obtain rfl := drops (by simp)
        refine ⟨turns, List.prefix_refl _, books.same ⟨wire.symm, ?_⟩ rfl, flush⟩
        rw [echo, List.map_nil] at printed
        exact printed.trans (List.append_nil _)
      · obtain ⟨turn, entry, flush⟩ := read_entry platform read idle device memFree
        exact ⟨turns ++ [turn], List.prefix_append _ _, books.enter entry, flush⟩
  | resetEntry =>
    have sweeps := step_resetEntry platform s
    generalize s.step platform .resetEntry = next at sweeps quiet ⊢
    cases sweeps with
    | more => exact quiet rfl rfl
    | last curr =>
      have entry : Entry s ⟨[], [], none, Sys.cmdCacheClear curr ++ prompt⟩
          ((({ s with
            clearing := (s.clearing.step .resetEntry).1
            purging := none } : CommandStation).print (Sys.cmdCacheClear curr)).print prompt) := by
        refine ⟨.cleared rfl rfl rfl, by simp, by simp, rfl, ?_, ?_⟩
        · rw [CommandStation.print, CommandStation.print, print_print]
          simp [Desk.print, Terminal.print, echo, crlf]
        · constructor <;>
          simp [CommandStation.print, Turn.rejected, Turn.accepted, Turn.cmd, Turn.packet]
      exact ⟨turns ++ [_], List.prefix_append _ _, books.enter entry, device⟩

variable (platform) in
theorem run_books (ops : List Op) (books : Books wire turns s)
    (device : s.desk.scanner.flush = Terminal.flush) :
    ∃ later, Books wire (turns ++ later) (Run.final (step platform) s ops) := by
  induction ops generalizing s turns with
  | nil =>
    refine ⟨[], ?_⟩
    rw [List.append_nil]
    exact books
  | cons op rest ih =>
    obtain ⟨turns', ⟨new, rfl⟩, after, flush⟩ := step_books platform op books device
    obtain ⟨later, last⟩ := ih after flush
    exact ⟨new ++ later, List.append_assoc turns new later ▸ last⟩

variable (platform) in
theorem run_device (ops : List Op) (books : Books wire turns s)
    (device : s.desk.scanner.flush = Terminal.flush) :
    (Run.final (step platform) s ops).desk.scanner.flush = Terminal.flush := by
  induction ops generalizing s turns with
  | nil => exact device
  | cons op rest ih =>
    obtain ⟨turns', -, after, flush⟩ := step_books platform op books device
    exact ih after flush

/-- In every run there is a list of turns that accounts for everything: each byte of the
line is given back once and in order or dropped with a parse error, what is printed
besides are the replies, and the counters count them. Going on only adds to it. -/
theorem run_accounted (platform : Platform) (memory : Scheduler.Memory) (buf : Vector Char 50)
    (wire : List Rx) (ops more : List Op) :
    ∃ turns later, Books wire turns (Run.final (step platform) (start memory buf wire) ops) ∧
      Books wire (turns ++ later)
        (Run.final (step platform) (start memory buf wire) (ops ++ more)) := by
  have first : Books wire [] (start memory buf wire) :=
    ⟨by simp, by simp, by simp, rfl, rfl, rfl, rfl, rfl, rfl, rfl⟩
  obtain ⟨turns, books⟩ := run_books platform ops first rfl
  obtain ⟨later, last⟩ := run_books platform more books
    (run_device platform ops first rfl)
  refine ⟨turns, later, books, ?_⟩
  rw [Run.final_append]
  exact last

end CommandStation
end Freedcc
