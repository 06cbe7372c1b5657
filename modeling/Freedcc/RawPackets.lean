import Freedcc.ParserResults

/-! The packets of `raw`: the text they are made from comes from the token buffer,
on any stream of characters, so that they have at most half as many bytes. -/
namespace Freedcc

namespace Scanner
open PartialProgram
variable {δ : Type} [Stdin δ]

/-- The text fits in the token buffer, if that is so at the start. -/
def Held (start : Prop) (scanner : Scanner δ) : Prop :=
  start → scanner.value.text.length ≤ maxTokLen

/-- The text of a hexadecimal token fits in any case, and consists of pairs. -/
def Spelt (start : Prop) (tok : Tok) (scanner : Scanner δ) : Prop :=
  Held (start ∨ tok = .hex) scanner ∧ (tok = .hex → scanner.value.text.length % 2 = 0)

variable {start : Prop}

theorem scanHex_length (room : Nat) (tok : List Char) (last : Option Char) :
    Ensures (fun _ => True) (scanHex room tok last : Scan δ (List Char × Option Char))
      fun scanned _ => scanned.1.length ≤ tok.length + room := by
  induction room generalizing tok last with
  | zero => exact .pure fun _ _ => Nat.le_refl _
  | succ room ih =>
    refine Ensures.bind (R := fun _ _ => True) (fun _ _ _ _ _ => trivial) fun c => ?_
    cases c with
    | none => exact .pure fun _ _ => Nat.le_add_right _ _
    | some letter =>
      refine Ensures.ite (fun _ => ?_) fun _ => .pure fun _ _ => Nat.le_add_right _ _
      refine (ih _ _).weaken (fun _ holds => holds) fun scanned _ length => ?_
      rw [List.length_append, List.length_singleton] at length
      omega

theorem scanLetters_length (room : Nat) (tok : List Char) (letter : Char) :
    Ensures (fun _ => True) (scanLetters room tok letter : Scan δ (List Char × Option Char))
      fun scanned _ => scanned.1.length ≤ tok.length + room := by
  induction room generalizing tok letter with
  | zero => exact .pure fun _ _ => Nat.le_refl _
  | succ room ih =>
    refine Ensures.bind (R := fun _ _ => True) (fun _ _ _ _ _ => trivial) fun c => ?_
    have longer : (tok ++ [letter.toLower]).length ≤ tok.length + (room + 1) := by
      rw [List.length_append, List.length_singleton]
      omega
    cases c with
    | none => exact .pure fun _ _ => longer
    | some next =>
      refine Ensures.ite (fun _ => ?_) fun _ => .pure fun _ _ => longer
      refine (ih _ _).weaken (fun _ holds => holds) fun scanned _ length => ?_
      rw [List.length_append, List.length_singleton] at length
      omega

theorem putBack_value {P : Value → Prop} (c : Option Char) :
    Ensures (fun s => P s.value) (putBack c : Scan δ Unit) fun _ s => P s.value := by
  cases c with
  | none => exact .modify fun _ holds => holds
  | some c => exact .modify fun _ holds => holds

omit [Stdin δ] in
theorem setValue_value {P : Value → Prop} {value : Value} (holds : P value) :
    Ensures (fun _ => True) (setValue value : Scan δ Unit) fun _ s => P s.value :=
  .modify fun _ _ => holds

theorem nextHex_spelt : Ensures (fun _ => True) (nextHex : Scan δ Tok) (Spelt start) := by
  refine (scanHex_length maxTokLen [] (some '0')).bind fun scanned s tok t length returned => ?_
  have short : scanned.1.length ≤ maxTokLen := Nat.zero_add maxTokLen ▸ length
  refine Ensures.bind (R := fun _ s => s.value = .s scanned.1) (P := fun _ => True) (Q := Spelt start)
    (setValue_value (P := (· = .s scanned.1)) rfl) (fun _ => ?_) s tok t trivial returned
  refine Ensures.ite (fun _ => ?_) fun even => ?_
  · refine .pure fun s same => ⟨fun _ => ?_, nofun⟩
    rw [same]
    exact short
  · refine (putBack_value (P := (· = .s scanned.1)) scanned.2).bind fun _ => .pure fun s same => ?_
    rw [Spelt, Held, same]
    refine ⟨fun _ => short, fun _ => ?_⟩
    change scanned.1.length % 2 = 0
    by_contra odd
    exact even ⟨by omega, odd⟩

theorem nextNumber_spelt (first : Char) :
    Ensures (fun _ => True) (nextNumber first : Scan δ Tok) (Spelt start) := by
  refine Ensures.get fun s _ => ?_
  refine Ensures.bind (R := fun _ _ => True) (fun _ _ _ _ _ => trivial) fun scanned => ?_
  refine (setValue_value (P := (· = .i scanned.1)) rfl).bind fun _ => ?_
  refine (putBack_value (P := (· = .i scanned.1)) scanned.2).bind fun _ => .pure fun s same => ?_
  rw [Spelt, Held, same]
  exact ⟨fun _ => Nat.zero_le _, nofun⟩

theorem ite_ne {c : Prop} [Decidable c] {x y z : Tok} (yes : x ≠ z) (no : y ≠ z) :
    (if c then x else y) ≠ z := by
  split
  · exact yes
  · exact no

theorem keyword_ne_hex (tok : List Char) : keyword tok ≠ .hex := by
  unfold keyword
  iterate 12 refine ite_ne (by simp) ?_
  simp

theorem nextKeyword_spelt (first : Char) :
    Ensures (fun _ => True) (nextKeyword first : Scan δ Tok) (Spelt start) := by
  refine (scanLetters_length maxTokLen [] first).bind fun scanned s tok t length returned => ?_
  have short : scanned.1.length ≤ maxTokLen := Nat.zero_add maxTokLen ▸ length
  refine Ensures.bind (R := fun _ s => s.value = .s scanned.1) (P := fun _ => True) (Q := Spelt start)
    (setValue_value (P := (· = .s scanned.1)) rfl) (fun _ => ?_) s tok t trivial returned
  refine (putBack_value (P := (· = .s scanned.1)) scanned.2).bind fun _ => .pure fun s same => ?_
  rw [Spelt, Held, same]
  exact ⟨fun _ => short, fun hex => absurd hex (keyword_ne_hex scanned.1)⟩

theorem getchar_held : Ensures (Held start) (getchar : Scan δ (Option Char)) fun _ => Held start := by
  intro s c t held returned
  cases read : Stdin.getchar s.stdin with
  | error fault => simp [getchar, read, bind, Except.bind] at returned
  | ok pair =>
    simp only [getchar, read, bind, Except.bind, pure, Except.pure, Except.ok.injEq,
      Prod.mk.injEq] at returned
    obtain ⟨-, rfl⟩ := returned
    exact held

omit [Stdin δ] in
theorem unknown_spelt : Ensures (Held start) (pure .unknown : Scan δ Tok) (Spelt start) := by
  refine .pure fun s held => ⟨fun within => ?_, nofun⟩
  rcases within with within | hex
  · exact held within
  · contradiction

theorem scanToken_spelt (fuel : Nat) :
    Ensures (Held start) (scanToken fuel : Scan δ Tok) (Spelt start) := by
  induction fuel with
  | zero => exact .throw
  | succ fuel ih =>
    refine getchar_held.bind fun c => ?_
    cases c with
    | none => exact unknown_spelt
    | some c =>
      refine Ensures.ite (fun _ => ?_) fun _ => ?_
      · refine getchar_held.bind fun c2 => ?_
        refine Ensures.ite (fun _ => ?_) fun _ => ?_
        · exact nextHex_spelt.weaken (fun _ _ => trivial) fun _ _ spelt => spelt
        · refine Ensures.bind (R := fun _ _ => True) (fun _ _ _ _ _ => trivial) fun _ => ?_
          exact nextNumber_spelt c
      refine Ensures.ite (fun _ => ?_) fun _ => Ensures.ite (fun _ => ?_) fun _ =>
        Ensures.ite (fun _ => ih) fun _ => unknown_spelt
      · exact (nextNumber_spelt c).weaken (fun _ _ => trivial) fun _ _ spelt => spelt
      · exact (nextKeyword_spelt c).weaken (fun _ _ => trivial) fun _ _ spelt => spelt

theorem nextToken_spelt : Ensures (Held start) (nextToken : Scan δ Tok) (Spelt start) := by
  refine Ensures.get fun s held => ?_
  refine Ensures.ite (fun _ => ?_) fun _ => ?_
  · refine unknown_spelt.weaken ?_ fun _ _ spelt => spelt
    rintro t rfl
    exact held
  · refine (scanToken_spelt _).weaken ?_ fun _ _ spelt => spelt
    rintro t rfl
    exact held

end Scanner

namespace Parser
open Dcc PartialProgram
variable {σ : Type} [TokenSource σ]

/-- A packet read off a text of whole bytes that fits in the token buffer. -/
def FromHex (packet : Packet) : Prop :=
  ∃ text, packet = ⟨hexBytes text⟩ ∧ text.length ≤ Scanner.maxTokLen ∧ text.length % 2 = 0

/-- If the result is a raw packet, it is one of these. -/
def RawAmong (among : Packet → Prop) (r : Option Result) : Prop :=
  ∀ ref, r = some ⟨.raw, .packet ref⟩ → among ref.packet

/-- A new result, and what the action of `raw` would store in it. -/
def Converts (null : Bool) (among : Packet → Prop) (parser : Parser σ) : Prop :=
  parser.result = some ⟨.undef, .garbage null⟩ ∧ ∀ last, null = false →
    reachRaw parser = .ok (true, last) → among ⟨hexBytes (TokenSource.value last.scanner).text⟩

theorem hexBytes_length (text : List Char) : (hexBytes text).length = text.length / 2 := by
  induction text using hexBytes.induct with
  | case1 c₁ c₂ rest ih =>
    rw [hexBytes, List.length_cons, ih, List.length_cons, List.length_cons]
    omega
  | case2 text short =>
    match text with
    | [] => rfl
    | [c] => simp [hexBytes]
    | c₁ :: c₂ :: rest => exact absurd rfl (short c₁ c₂ rest)

theorem FromHex.size (made : FromHex packet) : packet.size ≤ 10 := by
  obtain ⟨text, rfl, short, -⟩ := made
  rw [Packet.size, hexBytes_length]
  exact Nat.div_le_div_right short

/-- The current token has just been delivered. -/
theorem advance_spelt {δ : Type} [Stdin δ] {P : Option Result → Prop} :
    Ensures (About P) (advance : Parse (Scanner δ) Unit)
      fun _ p => P p.result ∧ Scanner.Spelt False p.curr p.scanner := by
  intro s a t before returned
  obtain ⟨curr, scanner, read, rfl⟩ := advance_ok.mp returned
  exact ⟨before, Scanner.nextToken_spelt _ _ _ nofun read⟩

/-- When the action of `raw` is reached, its text is that of the token before it. -/
theorem reachRaw_spelt {δ : Type} [Stdin δ] {P : Option Result → Prop} :
    Ensures (About P) (reachRaw : Parse (Scanner δ) Bool)
      fun reached p => P p.result ∧ (reached = true → Scanner.Spelt False .hex p.scanner) := by
  refine Ensures.and (R := fun p => P p.result ∧ Scanner.Spelt False p.curr p.scanner) ?_ ?_
  · refine (acceptNoAdvance_keeps .raw).cond ?_ (.pure fun _ holds => ⟨holds, nofun⟩)
    exact advance_spelt.bind fun _ => .pure fun _ holds => holds
  · intro p reached q holds returned
    cases returned
    refine ⟨holds.1, fun hex => ?_⟩
    rw [of_decide_eq_true hex]
    exact holds.2

omit [TokenSource σ] in
theorem makeRaw_among {null : Bool} {among : Packet → Prop} (text : List Char)
    (converted : null = false → among ⟨hexBytes text⟩) :
    Ensures (About (· = some ⟨.undef, .garbage null⟩)) (makeRaw text : Parse σ Unit)
      fun _ => About (RawAmong among) := by
  refine Ensures.get fun parser fresh => ?_
  have result : parser.result = some ⟨.undef, .garbage null⟩ := fresh
  cases null with
  | true =>
    rw [result]
    refine .pure ?_
    rintro next rfl ref made
    rw [result] at made
    cases made
  | false =>
    rw [result]
    apply Ensures.modify
    rintro next rfl ref made
    simp only [result, Option.some.injEq, Result.mk.injEq, true_and, Payload.packet.injEq] at made
    rw [← made]
    exact converted rfl

theorem grammarRaw_among (null : Bool) (among : Packet → Prop) :
    Ensures (Converts null among) (grammarRaw : Parse σ Bool) (Verdict (RawAmong among)) := by
  rintro parser accepted next ⟨fresh, converted⟩ returned
  rcases grammarRaw_cases fresh returned with ⟨rfl, left⟩ | ⟨last, reach, kept, later⟩
  · exact left
  · have action : Ensures (About (· = some ⟨.undef, .garbage null⟩))
        (do
          makeRaw (TokenSource.value last.scanner).text
          advance
          return true : Parse σ Bool) (Verdict (RawAmong among)) :=
      (makeRaw_among _ fun present => converted last present reach).bind fun _ =>
        advance_keeps.bind fun _ => .pure fun _ made => made
    exact action last accepted next kept later

theorem parse_among (null : Bool) (among : Packet → Prop) :
    Ensures (Converts null among) (parse : Parse σ Bool) (Verdict (RawAmong among)) := by
  apply parse_verdict (grammarRaw_among null among)
  · rintro C r ⟨ref, f, rfl, -⟩ other made
    cases made
  · intro cmd other made
    cases made

theorem write_type (change : Packet → Packet) (result : Result) :
    (result.write change).type = result.type := by
  unfold Result.write
  split <;> rfl

omit [TokenSource σ] in
theorem onPacket_type {type : ResType} (change : Packet → Packet) :
    Ensures (About fun r => r.map Result.type = some type) (onPacket change : Parse σ Unit)
      fun _ => About fun r => r.map Result.type = some type := by
  refine Ensures.modify fun p holds => ?_
  obtain ⟨result, made, same⟩ := Option.map_eq_some_iff.mp holds
  simp only [About, made, Option.map_some, write_type, same]

omit [TokenSource σ] in
/-- Only driving packets are finished off. -/
theorem finishPacket_raw {parsed next : Parser σ} {payload : Payload}
    (finished : finishPacket parsed = .ok (true, next))
    (raw : next.result = some ⟨.raw, payload⟩) : next = parsed := by
  cases made : parsed.result with
  | none =>
    obtain ⟨p, q, read, later⟩ := bind_ok finished
    obtain ⟨rfl, rfl⟩ := get_ok.mp read
    rw [made] at later
    contradiction
  | some result =>
    by_cases driving : result.type = .dcc
    · have typed : parsed.result.map Result.type = some .dcc := by rw [made, Option.map_some, driving]
      have kept : Ensures (fun p => p = parsed) (finishPacket : Parse σ Bool)
          fun _ => About fun r => r.map Result.type = some .dcc := by
        apply Ensures.get
        rintro p rfl
        obtain ⟨type, payload⟩ := result
        obtain rfl : type = .dcc := driving
        rw [made]
        refine Ensures.bind ((onPacket_type setChecksum).weaken ?_ fun _ _ holds => holds) fun _ =>
          (onPacket_type setPacketEnd).bind fun _ => .pure fun _ holds => holds
        rintro q rfl
        exact typed
      have wrong := kept parsed true next rfl finished
      simp [About, raw] at wrong
    · exact finishPacket_noFrame ⟨result, made, driving⟩ finished

/-- A raw packet that is handed over is what the action of `raw` has stored. -/
theorem parserStart_among {null : Bool} (among : Packet → Prop) {parser next : Parser σ}
    {ref : PacketRef} (accepted : parserStart (some null) parser = .ok (true, next))
    (raw : next.result = some ⟨.raw, .packet ref⟩)
    (converted : ∀ last, null = false →
      (do advance; reachRaw) (prepare (some null) parser) = .ok (true, last) →
        among ⟨hexBytes (TokenSource.value last.scanner).text⟩) : among ref.packet := by
  obtain ⟨opened, parsed, first, fresh, second, finished⟩ := parserStart_accepted accepted
  have converts : Converts null among opened :=
    ⟨fresh, fun last present reach => converted last present ((ok_bind first).trans reach)⟩
  obtain rfl := finishPacket_raw finished raw
  exact parse_among null among opened true next converts second ref raw

/-- It comes from a text of at most twenty digits. -/
theorem parserStart_raw {δ : Type} [Stdin δ] {null : Bool} {parser next : Parser (Scanner δ)}
    {ref : PacketRef} (accepted : parserStart (some null) parser = .ok (true, next))
    (raw : next.result = some ⟨.raw, .packet ref⟩) : FromHex ref.packet := by
  refine parserStart_among FromHex accepted raw fun last _ reach => ?_
  have spelt : Ensures (fun _ => True) (do advance; reachRaw : Parse (Scanner δ) Bool)
      fun reached p => True ∧ (reached = true → Scanner.Spelt False .hex p.scanner) :=
    (advance_keeps (P := fun _ => True)).bind fun _ => reachRaw_spelt
  obtain ⟨held, even⟩ := (spelt _ true last trivial reach).2 rfl
  exact ⟨_, rfl, held (Or.inr rfl), even rfl⟩

end Parser
end Freedcc
