import ZiModem.Text.LineEnds

/-! # The console's input loop

`RunInputLoop` on a redirected input: bytes go to the modem one at a time, except
two control bytes that the console handles itself. A line feed goes out as the
carriage return that the modem expects, and the one behind a carriage return is
swallowed. The flag that remembers the carriage return is cleared by every other
byte, by the handled ones too.
-/

namespace ZiModem.Console

open LineEnds

structure Session where
  written : List UInt8
  printed : List (List Char)
  deriving DecidableEq, Repr

def ctrlQ : UInt8 := 0x11

def ctrlD : UInt8 := 0x04

/-- `HandleByte`; on `false` the loop should stop. -/
def handleByte (dataDir : List Char) (s : Session) (b : UInt8) : Session × Bool :=
  if b = ctrlQ then (s, false)
  else if b = ctrlD then ({ s with printed := s.printed ++ [dataDir] }, true)
  else ({ s with written := s.written ++ [b] }, true)

def readLoop (dataDir : List Char) : Session → Bool → List UInt8 → Session
  | s, _, [] => s
  | s, lastWasCr, b :: stdin =>
      if lastWasCr = true ∧ b = lf then readLoop dataDir s false stdin
      else
        let (s, more) := handleByte dataDir s (if b = lf then cr else b)
        if more then readLoop dataDir s (decide (b = cr)) stdin else s

def forwarded (dataDir : List Char) (stdin : List UInt8) : List UInt8 :=
  (readLoop dataDir ⟨[], []⟩ false stdin).written

/-! ## Single steps -/

section Steps

variable (dataDir : List Char) (s : Session) {lastWasCr : Bool} (stdin : List UInt8)

theorem readLoop_swallow :
    readLoop dataDir s true (lf :: stdin) = readLoop dataDir s false stdin := by
  rw [readLoop, if_pos ⟨rfl, rfl⟩]

theorem readLoop_quit : readLoop dataDir s lastWasCr (ctrlQ :: stdin) = s := by
  rw [readLoop, if_neg fun h => absurd h.2 (by decide)]
  rfl

theorem readLoop_print : readLoop dataDir s lastWasCr (ctrlD :: stdin) =
    readLoop dataDir { s with printed := s.printed ++ [dataDir] } false stdin := by
  rw [readLoop, if_neg fun h => absurd h.2 (by decide)]
  rfl

theorem readLoop_lf : readLoop dataDir s false (lf :: stdin) =
    readLoop dataDir { s with written := s.written ++ [cr] } false stdin := by
  rw [readLoop, if_neg fun h => absurd h.1 Bool.false_ne_true]
  rfl

theorem readLoop_cr : readLoop dataDir s lastWasCr (cr :: stdin) =
    readLoop dataDir { s with written := s.written ++ [cr] } true stdin := by
  rw [readLoop, if_neg fun h => absurd h.2 cr_ne_lf]
  rfl

theorem readLoop_other {b : UInt8} (hq : b ≠ ctrlQ) (hd : b ≠ ctrlD) (hcr : b ≠ cr)
    (hlf : b ≠ lf) : readLoop dataDir s lastWasCr (b :: stdin) =
      readLoop dataDir { s with written := s.written ++ [b] } false stdin := by
  rw [readLoop, if_neg fun h => hlf h.2, if_neg hlf, handleByte, if_neg hq, if_neg hd,
    decide_eq_false hcr]
  rfl

end Steps

/-! ## The whole input -/

/-- What the loop still has to turn: a line feed that a carriage return has brought is done. -/
def pending (lastWasCr : Bool) (stdin : List UInt8) : List UInt8 :=
  if lastWasCr = true ∧ stdin.head? = some lf then stdin.tail else stdin

theorem pending_cons {b : UInt8} (hb : b ≠ lf) (lastWasCr : Bool) (stdin : List UInt8) :
    pending lastWasCr (b :: stdin) = b :: stdin :=
  if_neg fun h => hb (Option.some.inj h.2)

theorem pending_false (stdin : List UInt8) : pending false stdin = stdin :=
  if_neg fun h => absurd h.1 Bool.false_ne_true

/-- What goes up to the modem: everything before the first Ctrl+Q. -/
def heard (stdin : List UInt8) : List UInt8 := stdin.takeWhile (· != ctrlQ)

theorem heard_cons {b : UInt8} (hb : b ≠ ctrlQ) (stdin : List UInt8) :
    heard (b :: stdin) = b :: heard stdin :=
  List.takeWhile_cons_of_pos (bne_iff_ne.mpr hb)

def sent (text : List UInt8) : List UInt8 := text.filter (· != ctrlD)

theorem exists_sent_cons {b : UInt8} (hb : b ≠ ctrlD) {input rest written all : List UInt8}
    (hturn : ∀ text, OneCr rest text → OneCr input (b :: text))
    (h : ∃ text, OneCr rest text ∧ all = written ++ [b] ++ sent text) :
    ∃ text, OneCr input text ∧ all = written ++ sent text := by
  obtain ⟨text, htext, rfl⟩ := h
  have hsent : sent (b :: text) = b :: sent text :=
    List.filter_cons_of_pos (bne_iff_ne.mpr hb)
  refine ⟨b :: text, hturn text htext, ?_⟩
  rw [hsent, List.append_assoc, List.singleton_append]

theorem oneCr_heard_cr {stdin text : List UInt8} (h : OneCr (heard (pending true stdin)) text) :
    OneCr (heard (cr :: stdin)) (cr :: text) := by
  rw [heard_cons (by decide)]
  by_cases hlf : stdin.head? = some lf
  · rw [pending, if_pos ⟨rfl, hlf⟩] at h
    rw [List.eq_cons_of_mem_head? hlf, heard_cons (by decide)]
    exact .pair h
  · rw [pending, if_neg fun h => hlf h.2] at h
    exact .cr (head_takeWhile_ne hlf) h

/-- The loop sends what is pending, up to the first Ctrl+Q, with one carriage return for every end
of a line. -/
theorem readLoop_written (dataDir : List Char) (s : Session) (lastWasCr : Bool)
    (stdin : List UInt8) :
    ∃ text, OneCr (heard (pending lastWasCr stdin)) text ∧
      (readLoop dataDir s lastWasCr stdin).written = s.written ++ sent text := by
  induction stdin generalizing s lastWasCr with
  | nil =>
      refine ⟨[], ?_, (List.append_nil _).symm⟩
      rw [pending, if_neg fun h => by cases h.2]
      exact .nil
  | cons b stdin ih =>
      by_cases hlf : b = lf
      · subst hlf
        cases lastWasCr with
        | true =>
            rw [readLoop_swallow]
            have h := ih s false
            rwa [pending_false] at h
        | false =>
            have h := ih { s with written := s.written ++ [cr] } false
            rw [pending_false] at h
            rw [readLoop_lf, pending_false, heard_cons (by decide)]
            exact exists_sent_cons (by decide) (fun text htext => .lf htext) h
      · rw [pending_cons hlf]
        by_cases hq : b = ctrlQ
        · refine ⟨[], ?_, ?_⟩
          · rw [heard, hq, List.takeWhile_cons_of_neg (by decide)]
            exact .nil
          · rw [hq, readLoop_quit]
            exact (List.append_nil _).symm
        by_cases hcr : b = cr
        · have h := ih { s with written := s.written ++ [cr] } true
          rw [hcr, readLoop_cr]
          exact exists_sent_cons (by decide) (fun text htext => oneCr_heard_cr htext) h
        · by_cases hd : b = ctrlD
          · obtain ⟨text, htext, h⟩ := ih { s with printed := s.printed ++ [dataDir] } false
            rw [pending_false] at htext
            refine ⟨b :: text, ?_, ?_⟩
            · rw [heard_cons hq]
              exact .other hcr hlf htext
            · rw [hd, readLoop_print, h, sent, sent, List.filter_cons_of_neg (by decide)]
          · have h := ih { s with written := s.written ++ [b] } false
            rw [pending_false] at h
            rw [readLoop_other dataDir s stdin hq hd hcr hlf, heard_cons hq]
            exact exists_sent_cons hd (fun text htext => .other hcr hlf htext) h

theorem forwarded_sent (dataDir : List Char) (stdin : List UInt8) :
    ∃ text, OneCr (heard stdin) text ∧ forwarded dataDir stdin = sent text := by
  obtain ⟨text, htext, h⟩ := readLoop_written dataDir ⟨[], []⟩ false stdin
  rw [pending_false] at htext
  exact ⟨text, htext, h⟩

theorem forwarded_join (dataDir : List Char) (e : Ending) (lines : List Line) (last : Line) :
    forwarded dataDir (join e lines last) = sent (heard (join .cr lines last)) := by
  obtain ⟨text, htext, h⟩ := forwarded_sent dataDir (join e lines last)
  rw [h, htext.unique ((oneCr_join e lines last).takeWhile (by decide) (by decide))]
  rfl

/-- A redirected input is sent up to the first Ctrl+Q, with one carriage return for every end of a
line and without the Ctrl+Ds; how the lines end makes no difference. -/
theorem input_normalized (dataDir : List Char) :
    (∀ stdin, ∃ text, OneCr (stdin.takeWhile (· != ctrlQ)) text ∧
        forwarded dataDir stdin = text.filter (· != ctrlD)) ∧
      ∀ e e' lines last,
        forwarded dataDir (join e lines last) = forwarded dataDir (join e' lines last) := by
  constructor
  · exact forwarded_sent dataDir
  · intro e e' lines last
    rw [forwarded_join, forwarded_join]

/-- `AT`, typed on Windows and on Linux. -/
theorem input_normalized_at :
    forwarded [] (join .crlf [⟨[65, 84], by decide, by decide⟩] ⟨[], by decide, by decide⟩) =
      forwarded [] (join .lf [⟨[65, 84], by decide, by decide⟩] ⟨[], by decide, by decide⟩) :=
  (input_normalized []).2 .crlf .lf _ _

end ZiModem.Console
