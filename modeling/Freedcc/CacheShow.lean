import Freedcc.ClearPreempted
import Freedcc.CommandText

/-! `cache show N`, from the digits on the line to the lookup in the table: the
number is an `int` of 16 bits, the lookup takes its remainder as it is, and a
full table answers for every address. -/
namespace Freedcc
open Dcc OpenAddressing

/-- What `Sys_cmd_cache_show` reports: a packet, or that there is none. `none` when
the lookup leaves the table. -/
def sysCmdCacheShow (cache : Cache) (address : BitVec 16) : Option (Option PacketRef) := do
  let _ ← Hash.findEntry Cache.callbacks cache.packets address.toInt
  return cache.get address.toInt

namespace Cache

def Cached (cache : Cache) (number : Int) : Prop :=
  ∃ packet ∈ cache.occupants, address packet = number

/-- The lookup ends inside the table, and reports the packet for the number written
if there is one, and nothing else. -/
def Truthful (cache : Cache) (number : Nat) (key : BitVec 16) : Prop :=
  ∃ reported, sysCmdCacheShow cache key = some reported ∧
    ∀ packet, reported = some packet ↔ packet ∈ cache.occupants ∧ address packet = number

/-- The address written is cached; or what is left of the number in 16 bits starts a
lookup inside the table, is not the address of another loco, and there is a free slot. -/
def Answerable (cache : Cache) (number : Nat) : Prop :=
  let key := (BitVec.ofNat 16 number).toInt
  Cached cache number ∨
    (0 ≤ key ∨ (cacheAddrSize : Int) ∣ key) ∧ ¬ Cached cache key ∧
      ∃ slot : Fin cacheAddrSize, (cache.packets.entries.get slot).v = none

variable {cache : Cache}

theorem Valid.cached (valid : Valid cache) :
    Cached cache key ↔ Present cache.packets.table key := by
  constructor
  · rintro ⟨packet, member, rfl⟩
    obtain ⟨key, holds⟩ := (Hash.mem_values _).mp member
    obtain rfl := valid.keyed key packet holds
    exact ⟨packet, holds⟩
  · rintro ⟨packet, holds⟩
    exact ⟨packet, (Hash.mem_values _).mpr ⟨key, holds⟩, (valid.keyed key packet holds).symm⟩

theorem Valid.holds (valid : Valid cache) : packet ∈ cache.occupants ∧ address packet = key ↔
    Holds cache.packets.table key packet := by
  constructor
  · rintro ⟨member, rfl⟩
    obtain ⟨key, holds⟩ := (Hash.mem_values _).mp member
    obtain rfl := valid.keyed key packet holds
    exact holds
  · intro holds
    exact ⟨(Hash.mem_values _).mpr ⟨key, holds⟩, (valid.keyed key packet holds).symm⟩

theorem not_full_iff (cache : Cache) : ¬ Full cache.packets.table ↔
    ∃ slot : Fin cacheAddrSize, (cache.packets.entries.get slot).v = none := by
  simp only [Full, ne_eq, not_forall, not_not, Hash.table_eq_none]
  exact Iff.rfl

/-- A remainder in C has the sign of the dividend. -/
theorem start_inside (inside : 0 ≤ key ∨ (cacheAddrSize : Int) ∣ key) :
    (callbacks.lookup key).tmod cacheAddrSize = (home key).val := by
  change key.tmod 20 = ((key.toNat % 20 : Nat) : Int)
  rcases inside with positive | multiple
  · rw [Int.natCast_emod, Int.toNat_of_nonneg positive, Int.tmod_eq_emod_of_nonneg positive]
    rfl
  · have multiple : (20 : Int) ∣ key := multiple
    rw [Int.dvd_iff_tmod_eq_zero.mp multiple]
    omega

theorem findEntry_outside (cache : Cache) (outside : ¬ (0 ≤ key ∨ (cacheAddrSize : Int) ∣ key)) :
    Hash.findEntry callbacks cache.packets key = none := by
  obtain ⟨negative, odd⟩ := not_or.mp outside
  have below : (callbacks.lookup key).tmod cacheAddrSize < 0 := by
    have nonzero : key.tmod 20 ≠ 0 := fun zero => odd (Int.dvd_iff_tmod_eq_zero.mpr zero)
    have opposite : 0 ≤ (-key).tmod 20 := Int.tmod_nonneg 20 (by omega)
    rw [Int.neg_tmod] at opposite
    change key.tmod 20 < 0
    omega
  have start : ¬ (0 ≤ (callbacks.lookup key).tmod cacheAddrSize ∧
      (callbacks.lookup key).tmod cacheAddrSize < cacheAddrSize) := fun both => by omega
  exact dif_neg start

theorem sysCmdCacheShow_outside (cache : Cache) {address : BitVec 16}
    (outside : ¬ (0 ≤ address.toInt ∨ (cacheAddrSize : Int) ∣ address.toInt)) :
    sysCmdCacheShow cache address = none := by
  rw [sysCmdCacheShow, findEntry_outside cache outside]
  rfl

theorem sysCmdCacheShow_inside (cache : Cache) {address : BitVec 16}
    (inside : 0 ≤ address.toInt ∨ (cacheAddrSize : Int) ∣ address.toInt) :
    sysCmdCacheShow cache address = some ((cache.packets.table
      (locate order cache.packets.table address.toInt)).map Prod.snd) := by
  have found := Hash.findEntry_of_start callbacks_decides (by decide) cache.packets
    (start_inside inside)
  rw [sysCmdCacheShow, found]
  exact congrArg some (Hash.get_of_found cache.packets found)

theorem address_range (packet : PacketRef) : 0 ≤ address packet ∧ address packet < 128 := by
  have bound := getAddress_lt packet.packet
  simp only [address]
  omega

/-- A number that is an address survives the arithmetic. -/
theorem key_of_cached {n : Nat} (cached : Cached cache n) : (BitVec.ofNat 16 n).toInt = n := by
  obtain ⟨packet, -, same⟩ := cached
  have bounds := address_range packet
  have small : (BitVec.ofNat 16 n).toNat = n := by
    rw [BitVec.toNat_ofNat]
    omega
  rw [BitVec.toInt_eq_toNat_of_lt (by omega), small]

theorem Valid.truthful_iff (valid : Valid cache) (n : Nat) :
    Truthful cache n (BitVec.ofNat 16 n) ↔ Answerable cache n := by
  generalize key : (BitVec.ofNat 16 n).toInt = k
  by_cases cached : Cached cache n
  · have same : k = n := key.symm.trans (key_of_cached cached)
    refine iff_of_true ?_ (Or.inl cached)
    obtain ⟨packet, s, stored⟩ := valid.cached.mp cached
    have inside : 0 ≤ (BitVec.ofNat 16 n).toInt ∨
        (cacheAddrSize : Int) ∣ (BitVec.ofNat 16 n).toInt := Or.inl (by omega)
    refine ⟨some packet, ?_, fun other => ?_⟩
    · rw [sysCmdCacheShow_inside cache inside, key, same, valid.settled.located stored]
      rfl
    · rw [valid.holds]
      constructor
      · intro told
        rw [← Option.some.inj told]
        exact ⟨s, stored⟩
      · rintro ⟨t, again⟩
        have slot := valid.settled.unique stored again
        rw [slot, again, Option.some.injEq, Prod.mk.injEq] at stored
        rw [stored.2]
  · have nothing : ∀ packet, ¬ (packet ∈ cache.occupants ∧ address packet = n) :=
      fun packet both => cached ⟨packet, both⟩
    constructor
    · rintro ⟨reported, shown, truth⟩
      obtain rfl : reported = none :=
        Option.eq_none_iff_forall_ne_some.mpr fun packet told => nothing packet ((truth packet).mp told)
      by_cases inside : 0 ≤ (BitVec.ofNat 16 n).toInt ∨
          (cacheAddrSize : Int) ∣ (BitVec.ofNat 16 n).toInt
      · rw [sysCmdCacheShow_inside cache inside, Option.some.injEq, Option.map_eq_none_iff] at shown
        refine Or.inr ⟨inside, fun other => ?_, (not_full_iff cache).mp fun full => full _ shown⟩
        obtain ⟨packet, s, stored⟩ := valid.cached.mp other
        rw [valid.settled.located stored] at shown
        contradiction
      · rw [sysCmdCacheShow_outside cache inside] at shown
        contradiction
    · intro answerable
      obtain ⟨inside, other, free⟩ := answerable.resolve_left cached
      refine ⟨none, ?_, fun packet => iff_of_false (by simp) (nothing packet)⟩
      have absent : ¬ Present cache.packets.table (BitVec.ofNat 16 n).toInt :=
        fun present => other (valid.cached.mpr present)
      rw [sysCmdCacheShow_inside cache inside,
        locate_free (order_covers _) absent ((not_full_iff cache).mpr free)]
      rfl

end Cache

namespace Scheduler

/-- What there can be between two commands. `cache clear` may have been interrupted,
as long as no packet was stored out of its place. -/
inductive Reached (memory : Memory) : Scheduler → Prop where
  | init : Reached memory (moduleInit memory)
  | step (op : Op) (before : Reached memory s) : Reached memory (step s op).1
  | cacheClear (ops : List Clearing.Op) (before : Reached memory s)
      (harmless : Run.Along Clearing.step Clearing.Harmless (Clearing.start s) ops)
      (finished : (Run.final Clearing.step (Clearing.start s) ops).done = cacheAddrSize) :
      Reached memory (Run.final Clearing.step (Clearing.start s) ops).scheduler

theorem Reached.valid (reached : Reached memory s) : s.cache.Valid := by
  induction reached with
  | init => exact Cache.valid_moduleInit _ _
  | step op before ih => exact step_valid ih op
  | cacheClear ops before harmless finished =>
    obtain ⟨rota, tracks⟩ := (Clearing.kept_run harmless).tracks finished
    exact tracks.valid

end Scheduler

namespace Console
open Scanner PartialProgram Grammar Freedcc.Parser

/-- Any decimal digits, and the number they write. -/
structure DigitString (n : Nat) (text : List Char) : Prop where
  nonempty : text ≠ []
  digits : ∀ c ∈ text, Char.isDigit c = true
  value : Nat.ofDigitChars 10 text 0 = n

inductive ShowLine (n : Nat) : List Char → Prop where
  | line (lead : Blanks gap) (first : Spells ["cache"] word) (between : Gap blanks)
      (second : Spells ["show"] other) (after : Gap space) (number : DigitString n digits)
      (trail : Blanks tail) :
      ShowLine n (gap ++ ((word ++ (blanks ++ (other ++ (space ++ digits)))) ++ (tail ++ ['\n'])))

theorem DigitString.lexeme (number : DigitString n text) :
    Lexeme text (.number, .i (BitVec.ofNat 16 n)) := by
  obtain ⟨first, more, rfl⟩ := List.exists_cons_of_ne_nil number.nonempty
  rw [← number.value]
  exact .number number.digits

theorem ShowLine.spells (line : ShowLine n text) : ∃ u v,
    Line text [(.cache, u), (.show, v), (.number, .i (BitVec.ofNat 16 n))] := by
  cases line with
  | line lead first between second after number trail =>
    obtain ⟨u, cache⟩ := first.reads .cache (by decide) (by simp)
    obtain ⟨v, show'⟩ := second.reads .show (by decide) (by simp)
    have last := show'.append (fun rest => by rw [List.append_assoc]; exact after.opens _)
      ((Lexeme.reads number.lexeme).after after.2)
    have command := cache.append (fun rest => by rw [List.append_assoc]; exact between.opens _)
      (last.after between.2)
    exact ⟨u, v, command _ _ [] lead (opens_newline trail) (.ends trail)⟩

/-- The line is accepted, and the command carries the number in 16 bits. -/
theorem ShowLine.parsed (line : ShowLine n text) (null : Bool) {p : Parser (Scanner CharStream)}
    (fresh : p.scanner.stdin = ⟨none, text.map some ++ rest⟩) :
    ∃ next, parserStart (some null) p = .ok (true, next) ∧ next.result =
      some ⟨.sys, .cmd { type := .cacheShow, args := some (BitVec.ofNat 16 n) }⟩ := by
  obtain ⟨u, v, spelled⟩ := line.spells
  obtain ⟨value, delivers⟩ := spelled.delivers rfl (contents_reset fresh)
  have split : alternatives = [.raw, .help, .show] ++ .cache :: [.forward, .reverse, .stop] := rfl
  obtain ⟨parsed, r, vs, called, result, -, rfl⟩ := accepts_at null
    (Q := fun r _ => r = ⟨.sys, .cmd { type := .cacheShow, args := some (BitVec.ofNat 16 n) }⟩)
    delivers split (strays_other (by simp) _ _) fun q r _ =>
      ⟨q, _, _, cacheShow_accepts q r _, List.cons_ne_nil _ _, rfl⟩
  have meant : (Meaning.sys { type := .cacheShow, args := some (BitVec.ofNat 16 n) }).Drafted
      ⟨.sys, .cmd { type := .cacheShow, args := some (BitVec.ofNat 16 n) }⟩ := rfl
  obtain ⟨next, finished, told, -⟩ := finish_drafted meant result
  exact ⟨next, called.trans finished, told⟩

/-- `cache show N` is answered with the truth if and only if the number can be told
from the addresses of other locos, and there is a free slot unless it is cached. -/
theorem cache_show_truthful_iff (memory : Scheduler.Memory) (s : Scheduler)
    (reached : Scheduler.Reached memory s) (n : Nat) (text : List Char) (line : ShowLine n text)
    (rest : List (Option Char)) (null : Bool) (p : Parser (Scanner CharStream))
    (fresh : p.scanner.stdin = ⟨none, text.map some ++ rest⟩) :
    ∃ next key, parserStart (some null) p = .ok (true, next) ∧
      next.result = some ⟨.sys, .cmd { type := .cacheShow, args := some key }⟩ ∧
      (s.cache.Truthful n key ↔ s.cache.Answerable n) := by
  obtain ⟨next, accepted, result⟩ := line.parsed null fresh
  exact ⟨next, _, accepted, result, reached.valid.truthful_iff n⟩

def showLoco : Scheduler :=
  Run.final Scheduler.step (Scheduler.moduleInit .zero) [.addPacket Clearing.driven, .tick]

theorem showLoco_reached : Scheduler.Reached .zero showLoco :=
  .step .tick (.step (.addPacket Clearing.driven) .init)

theorem showLine_simple (number : DigitString n text) :
    ShowLine n ("cache show ".toList ++ (text ++ ['\n'])) := by
  have one : Gap [' '] := ⟨by simp, by simp [Blanks]⟩
  have first : Spells ["cache"] "cache".toList := ⟨"cache", by simp, by decide⟩
  have second : Spells ["show"] "show".toList := ⟨"show", by simp, by decide⟩
  have line := ShowLine.line blanks_nil first one second one number blanks_nil
  simpa using line

theorem cache_show_truthful_iff_three : ∃ next key,
    parserStart (some false) (typed "cache show 003\n") = .ok (true, next) ∧
      next.result = some ⟨.sys, .cmd { type := .cacheShow, args := some key }⟩ ∧
      showLoco.cache.Truthful 3 key := by
  have number : DigitString 3 "003".toList := ⟨by simp, by simp, by simp [Nat.ofDigitChars]⟩
  obtain ⟨next, key, accepted, result, truth⟩ := cache_show_truthful_iff .zero showLoco
    showLoco_reached 3 _ (showLine_simple number) [] false (typed "cache show 003\n") (by decide)
  have cached : showLoco.cache.Cached 3 := ⟨Clearing.driven, by decide +kernel, by decide⟩
  exact ⟨next, key, accepted, result, truth.mpr (Or.inl cached)⟩

/-- The lookup for 32769 starts seven slots before the table. -/
theorem cache_show_outside : ∃ next key,
    parserStart (some false) (typed "cache show 32769\n") = .ok (true, next) ∧
      next.result = some ⟨.sys, .cmd { type := .cacheShow, args := some key }⟩ ∧
      sysCmdCacheShow showLoco.cache key = none ∧ ¬ showLoco.cache.Truthful 32769 key := by
  have number : DigitString 32769 "32769".toList :=
    ⟨by simp, by simp, by simp [Nat.ofDigitChars]⟩
  have fresh : (typed "cache show 32769\n").scanner.stdin =
      ⟨none, ("cache show ".toList ++ ("32769".toList ++ ['\n'])).map some ++ []⟩ := by decide
  obtain ⟨next, accepted, result⟩ := (showLine_simple number).parsed false fresh
  have outside : sysCmdCacheShow showLoco.cache (BitVec.ofNat 16 32769) = none :=
    Cache.sysCmdCacheShow_outside showLoco.cache (by simp)
  refine ⟨next, _, accepted, result, outside, ?_⟩
  rintro ⟨reported, shown, -⟩
  rw [outside] at shown
  cases shown

end Console
end Freedcc
