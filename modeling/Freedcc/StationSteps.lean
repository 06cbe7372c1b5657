import Freedcc.CommandStation

/-! What the steps of the program can be: each kind of step has its cases here, once, and
what is said of all runs is said of these. -/
namespace Freedcc
open PartialProgram Freedcc.Parser Reader

namespace Desk

section Calls
variable {δ : Type} [Stdin δ]

/-- What a call with a byte waiting comes to. -/
inductive Answers (null : Bool) (p : Parser (Scanner δ)) : Reading → Parser (Scanner δ) → Prop where
  | blank (opened : opening p = .ok (false, next)) : Answers null p .blank next
  | rejected (opened : opening p = .ok (true, called))
      (parsed : parserStart (some null) called = .ok (false, next)) : Answers null p .rejected next
  | accepted (opened : opening p = .ok (true, called))
      (parsed : parserStart (some null) called = .ok (true, next)) :
      Answers null p (.accepted next.result) next

theorem answering_ok {p next : Parser (Scanner δ)} :
    answering null p = .ok (reading, next) ↔ Answers null p reading next := by
  constructor
  · intro read
    obtain ⟨begun, called, opened, read⟩ := bind_ok read
    cases begun with
    | false =>
      obtain ⟨rfl, rfl⟩ := pure_ok.mp read
      exact .blank opened
    | true =>
      obtain ⟨accepted, parsed, started, read⟩ := bind_ok read
      cases accepted with
      | false =>
        obtain ⟨rfl, rfl⟩ := pure_ok.mp read
        exact .rejected opened started
      | true =>
        obtain ⟨_, _, here, read⟩ := bind_ok read
        obtain ⟨rfl, rfl⟩ := get_ok.mp here
        obtain ⟨rfl, rfl⟩ := pure_ok.mp read
        exact .accepted opened started
  · rintro (opened | ⟨opened, parsed⟩ | ⟨opened, parsed⟩)
    · rw [answering, ok_bind opened]
      rfl
    · rw [answering, ok_bind opened, if_pos rfl, ok_bind parsed]
      rfl
    · rw [answering, ok_bind opened, if_pos rfl, ok_bind parsed]
      rfl

theorem read_waiting {desk : Desk} (waiting : 0 < desk.scanner.stdin.io.arrived) (null : Bool) :
    Desk.read null desk = answering null desk := by
  rw [Desk.read, ok_bind (get_ok.mpr ⟨rfl, rfl⟩), if_pos waiting]

theorem read_idle {desk : Desk} (idle : ¬ 0 < desk.scanner.stdin.io.arrived) (null : Bool) :
    Desk.read null desk = .ok (.nothing, desk) := by
  rw [Desk.read, ok_bind (get_ok.mpr ⟨rfl, rfl⟩), if_neg idle]
  rfl

end Calls

end Desk

namespace CommandStation
variable (platform : Platform) (memFree : BitVec 16)

inductive Called (s : CommandStation) : SysCmd → CommandStation × List Effect → Prop where
  | prints {cmd : SysCmd} (text : List Char) (other : cmd.type ≠ .cacheClear) :
      Called s cmd ((s.print text).print prompt,
        (cmd.shown s.clearing.scheduler.cache).toList.map (.use ∘ .shown))
  | clears (args : Option (BitVec 16)) :
      Called s ⟨.cacheClear, args⟩
        ({ s with
          clearing := .start s.clearing.scheduler
          purging := some (BitVec.ofNat 16 s.clearing.scheduler.cache.reportCurrentSize) }, [])
  | mute : Called s ⟨.cacheShow, none⟩ (s.print prompt, [])

theorem called (cmd : SysCmd) (s : CommandStation) : Called s cmd (s.call platform memFree cmd) := by
  obtain ⟨type, args⟩ := cmd
  cases type with
  | status => exact .prints _ nofun
  | help => exact .prints _ nofun
  | cacheClear => exact .clears args
  | cacheShow =>
    cases args with
    | none => exact .mute
    | some address => exact .prints _ nofun

inductive Obeyed (s : CommandStation) : Desk.Reading → CommandStation × List Effect → Prop where
  | nothing : Obeyed s .nothing (s, [])
  | blank : Obeyed s .blank (s.print prompt, [])
  | rejected : Obeyed s .rejected
      (((s.account Sys.parseErrIncrement).print "parse error\n\n".toList).print prompt, [])
  | packet (type : ResType) (ref : Dcc.PacketRef) (kind : type = .raw ∨ type = .dcc) :
      Obeyed s (.accepted (some ⟨type, .packet ref⟩))
        (((((s.account Sys.parseOkIncrement).print "ok\n\n".toList).account
          (·.processDccTx ref.packet)).print prompt).addPacket ref, [])
  | cmd (cmd : SysCmd) : Obeyed s (.accepted (some ⟨.sys, .cmd cmd⟩))
      (((s.account Sys.parseOkIncrement).account Sys.processSysCmd).call platform memFree cmd)
  | mute (result : Option Result) (ignored : result.bind Result.outcome = none) :
      Obeyed s (.accepted result) ((s.account Sys.parseOkIncrement).print prompt, [])

theorem obeyed (reading : Desk.Reading) (s : CommandStation) :
    Obeyed platform memFree s reading (s.answer platform memFree reading) := by
  cases reading with
  | nothing => exact .nothing
  | blank => exact .blank
  | rejected => exact .rejected
  | accepted result =>
    rcases result with _ | ⟨type, payload⟩
    · exact .mute none rfl
    · cases payload with
      | garbage null => cases type <;> exact .mute _ rfl
      | packet ref =>
        cases type with
        | raw => exact .packet .raw ref (Or.inl rfl)
        | dcc => exact .packet .dcc ref (Or.inr rfl)
        | undef | sys => exact .mute _ rfl
      | cmd cmd =>
        cases type with
        | sys => exact .cmd cmd
        | undef | raw | dcc => exact .mute _ rfl

/-- A call of `IO_read` waits, or comes to its answer. -/
inductive ReadStep (null : Bool) (s : CommandStation) : CommandStation × List Effect → Prop where
  | busy (waits : s.clearing.done < cacheAddrSize) : ReadStep null s (s, [])
  | stuck (free : ¬ s.clearing.done < cacheAddrSize)
      (read : Desk.read null s.desk = .error fault) : ReadStep null s (s, [])
  | answers {reading : Desk.Reading} {desk : Desk} (free : ¬ s.clearing.done < cacheAddrSize)
      (read : Desk.read null s.desk = .ok (reading, desk)) :
      ReadStep null s (answer platform memFree reading { s with desk })

theorem step_read (null : Bool) (s : CommandStation) :
    ReadStep platform memFree null s (s.step platform (.read null memFree)) := by
  by_cases busy : s.clearing.done < cacheAddrSize
  · rw [step, if_pos busy]
    exact .busy busy
  · rw [step, if_neg busy]
    cases read : Desk.read null s.desk with
    | error fault => exact .stuck busy read
    | ok pair => exact .answers busy read

/-- A step of `Hash_reset` is one among others, or the last of a `cache clear`. -/
inductive SweepStep (s : CommandStation) : CommandStation × List Effect → Prop where
  | more : SweepStep s ({ s with clearing := (s.clearing.step .resetEntry).1 },
      (s.clearing.step .resetEntry).2.map (.use ∘ .event))
  | last (curr : BitVec 16) (purging : s.purging = some curr)
      (done : ¬ (s.clearing.step .resetEntry).1.done < cacheAddrSize) :
      SweepStep s
        ((({ s with
          clearing := (s.clearing.step .resetEntry).1
          purging := none } : CommandStation).print (Sys.cmdCacheClear curr)).print prompt,
        (s.clearing.step .resetEntry).2.map (.use ∘ .event))

theorem step_resetEntry (s : CommandStation) : SweepStep s (s.step platform .resetEntry) := by
  simp only [step]
  split
  · split
    · exact .more
    · exact .last _ ‹_› ‹_›
  · exact .more

end CommandStation
end Freedcc
