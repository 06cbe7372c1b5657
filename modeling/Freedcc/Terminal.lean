import Freedcc.IoProofs

/-! The computer communication of io.c with what it writes: `IO_getc` gives every
byte it stores back to the host, and `printf` goes the same way through `IO_putc`.
Without the output it is the device of before. -/
namespace Freedcc
open Dcc

structure Terminal where
  io : Io
  /-- What `UDR0` has been given. -/
  printed : List Char

namespace Terminal

/-- `IO_putc` writes a carriage return before a newline. -/
def putc (c : Char) : List Char := if c = '\n' then ['\r', '\n'] else [c]

def crlf (text : List Char) : List Char := text.flatMap putc

def print (text : List Char) (terminal : Terminal) : Terminal :=
  { terminal with printed := terminal.printed ++ crlf text }

instance : Usart Terminal :=
  { io := Terminal.io
    update := fun change t => { t with io := change t.io }
    echo := fun c => print [c]
    io_update := fun _ _ => rfl, io_echo := fun _ _ => rfl }

abbrev getchar : Terminal → Except Fault (Option Char × Terminal) := Usart.getchar

def ungetc (c : Char) (t : Terminal) : Terminal := { t with io := t.io.ungetc c }

def pending (t : Terminal) : Nat := t.io.pending

def flush (t : Terminal) : Terminal := { t with io := t.io.flush }

def receive (t : Terminal) : Terminal := { t with io := t.io.receive }

/-- `IO_module_init`; nothing has been written. -/
def moduleInit (buf : Vector Char 50) (wire : List Rx) : Terminal :=
  { io := Io.moduleInit buf wire, printed := [] }

@[simp] theorem crlf_append (text more : List Char) : crlf (text ++ more) = crlf text ++ crlf more :=
  List.flatMap_append

@[simp] theorem io_print (text : List Char) (t : Terminal) : (t.print text).io = t.io := rfl

@[simp] theorem printed_print (text : List Char) (t : Terminal) :
    (t.print text).printed = t.printed ++ crlf text := rfl

/-- Without the output. -/
theorem getchar_io (t : Terminal) :
    t.getchar.map (fun (c, t) => (c, t.io)) = t.io.getchar := Usart.getchar_io t

/-! What is echoed. -/

def Clean (rx : Rx) : Prop := rx.frameError = false ∧ rx.overrun = false

/-- What is given back for some bytes. -/
def echo (bytes : List Rx) : List Char := crlf (bytes.map (Io.translate ·.c))

theorem echo_append (bytes more : List Rx) : echo (bytes ++ more) = echo bytes ++ echo more := by
  rw [echo, List.map_append, crlf_append, echo, echo]

/-- The bytes taken from the wire have been given back, each once and in order. -/
def Echoes (before after : Terminal) : Prop :=
  ∃ taken, (∀ rx ∈ taken, Clean rx) ∧ before.io.wire = taken ++ after.io.wire ∧
    after.printed = before.printed ++ echo taken

theorem Echoes.refl (t : Terminal) : Echoes t t :=
  ⟨[], by simp, rfl, (List.append_nil _).symm⟩

theorem Echoes.trans {t u v : Terminal} (first : Echoes t u) (second : Echoes u v) : Echoes t v := by
  obtain ⟨taken, clean, wire, printed⟩ := first
  obtain ⟨more, clean', wire', printed'⟩ := second
  refine ⟨taken ++ more, List.forall_mem_append.mpr ⟨clean, clean'⟩, ?_, ?_⟩
  · rw [wire, wire', List.append_assoc]
  · rw [printed', printed, echo_append, List.append_assoc]

theorem ungetc_echoes (c : Char) (t : Terminal) : Echoes t (t.ungetc c) := by
  refine ⟨[], by simp, ?_, (List.append_nil _).symm⟩
  unfold ungetc Io.ungetc
  split <;> rfl

theorem poll_echoes {wire : List Rx} {t : Terminal} (holds : t.io.wire = wire)
    (polled : Usart.poll wire t = .ok (filled, next)) : Echoes t next := by
  induction wire generalizing t with
  | nil => contradiction
  | cons rx rest ih =>
    rw [Usart.poll] at polled
    split at polled
    · cases polled
      exact .refl t
    · rename_i framed
      split at polled
      · cases polled
        exact .refl t
      · rename_i kept
        dsimp only at polled
        have stored : Echoes t (({ t with io := t.io.store rx.c rest } : Terminal).print
            [Io.translate rx.c]) :=
          ⟨[rx], List.forall_mem_singleton.mpr
            ⟨Bool.eq_false_iff.mpr framed, Bool.eq_false_iff.mpr kept⟩, holds, rfl⟩
        split at polled
        · cases polled
          exact stored
        · exact stored.trans (ih rfl polled)

theorem getc_echoes {t : Terminal} (read : Usart.getc t = .ok (c, next)) : Echoes t next := by
  rw [Usart.getc] at read
  by_cases empty : (Usart.io t).rxRing.count = 0
  · rw [if_pos empty] at read
    cases polled : Usart.poll (Usart.io t).wire t with
    | error fault =>
      rw [polled] at read
      contradiction
    | ok pair =>
      obtain ⟨filled, t'⟩ := pair
      rw [polled] at read
      have echoed := poll_echoes rfl polled
      cases filled with
      | true =>
        cases read
        exact echoed
      | false =>
        cases read
        exact echoed
  · rw [if_neg empty] at read
    cases read
    exact .refl t

theorem getchar_echoes {t : Terminal} (read : t.getchar = .ok (c, next)) : Echoes t next := by
  rw [getchar, Usart.getchar] at read
  split at read
  · cases read
    exact .refl t
  · exact getc_echoes read

end Terminal
end Freedcc
