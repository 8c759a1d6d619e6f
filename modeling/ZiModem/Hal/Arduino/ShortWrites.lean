import ZiModem.Hal.Arduino.Print
import ZiModem.Hal.Net.Bio

/-! # Sinks that do not take everything

A sink answers for each byte it is offered, or takes the first bytes of a block
as a socket does. What it answers may depend on all that went before. The block
write and `print` stop at the first byte that is refused; `println` offers the
line end in any case.
-/

namespace ZiModem.Hal.Arduino

abbrev SinkLog := List (UInt8 × Bool)

def emitted (log : SinkLog) : List UInt8 := (log.filter fun e => e.2).map Prod.fst

inductive Sink
  | perByte (accepts : SinkLog → UInt8 → Bool)
  | block (takes : SinkLog → List UInt8 → Nat)

def answers (taken refused : List UInt8) : SinkLog :=
  taken.map (·, true) ++ refused.map (·, false)

namespace Sink

/-- How many bytes of `text` a sink takes that answers for each byte, until it refuses one. -/
def run (accepts : SinkLog → UInt8 → Bool) : SinkLog → List UInt8 → Nat
  | _, [] => 0
  | log, b :: text => if accepts log b then run accepts (log ++ [(b, true)]) text + 1 else 0

def taken : Sink → SinkLog → List UInt8 → Nat
  | perByte accepts, log, text => run accepts log text
  | block takes, log, text => min (takes log text) text.length

/-- What it refuses of the rest: where it answers for each byte, it is offered no second one. -/
def refused : Sink → List UInt8 → List UInt8
  | perByte _, rest => rest.take 1
  | block _, rest => rest

def after (k : Sink) (log : SinkLog) (text : List UInt8) : SinkLog :=
  let n := k.taken log text
  log ++ answers (text.take n) (k.refused (text.drop n))

def print : Sink → Print SinkLog
  | perByte accepts =>
      .ofByte fun log b => (log ++ [(b, accepts log b)], if accepts log b then 1 else 0)
  | block takes =>
      let writeBuffer log buffer :=
        let n := min (takes log buffer) buffer.length
        (log ++ answers (buffer.take n) (buffer.drop n), n)
      ⟨fun log b => writeBuffer log [b], writeBuffer⟩

end Sink

/-- `WiFiClient`: the block write is one `send`, whose outcome may depend on all before. -/
def wifiClient (s : Net.TcpSocket) (send : SinkLog → List UInt8 → Net.Send) : Print SinkLog :=
  let writeBuffer log buffer :=
    let n := s.write buffer (send log buffer).ret
    (log ++ answers (buffer.take n) (buffer.drop n), n)
  ⟨fun log b => writeBuffer log [b], writeBuffer⟩

def Settled (log : SinkLog) : Prop := log.Pairwise fun e e' => e'.2 = true → e.2 = true

/-- What a call has emitted is a prefix of `intended`, the count is its length, and nothing was
emitted after a byte that the sink refused. -/
structure CleanPrefix (intended : List UInt8) (log : SinkLog) (result : SinkLog × Nat) : Prop where
  kept : log <+: result.1
  text : emitted (result.1.drop log.length) <+: intended
  count : result.2 = (emitted (result.1.drop log.length)).length
  settled : Settled (result.1.drop log.length)

/-! ## Logs -/

theorem emitted_append (log log' : SinkLog) :
    emitted (log ++ log') = emitted log ++ emitted log' := by
  simp only [emitted, List.filter_append, List.map_append]

theorem emitted_answers (taken refused : List UInt8) : emitted (answers taken refused) = taken := by
  rw [answers, emitted_append]
  simp [emitted, List.filter_map, Function.comp_def]

/-- Offers one after another are settled if nothing was refused before, or nothing taken after. -/
theorem settled_append_iff (taken refused taken' refused' : List UInt8) :
    Settled (answers taken refused ++ answers taken' refused') ↔ refused = [] ∨ taken' = [] := by
  simp only [Settled, answers, List.pairwise_append, List.pairwise_map, List.mem_append,
    List.mem_map]
  constructor
  · intro h
    by_contra hboth
    rw [not_or] at hboth
    obtain ⟨b, hb⟩ := List.exists_mem_of_ne_nil _ hboth.1
    obtain ⟨b', hb'⟩ := List.exists_mem_of_ne_nil _ hboth.2
    have hlate := h.2.2 _ (.inr ⟨b, hb, rfl⟩) _ (.inl ⟨b', hb', rfl⟩) rfl
    cases hlate
  · rintro (rfl | rfl)
    · simp [List.pairwise_of_forall]
    · simp [List.pairwise_of_forall]

theorem settled_answers (taken refused : List UInt8) : Settled (answers taken refused) := by
  have h := (settled_append_iff taken refused [] []).mpr (.inr rfl)
  rwa [answers, answers, List.map_nil, List.map_nil, List.append_nil, List.append_nil] at h

theorem cleanPrefix_iff {intended : List UInt8} {log new : SinkLog} {n : Nat} :
    CleanPrefix intended log (log ++ new, n) ↔
      emitted new <+: intended ∧ n = (emitted new).length ∧ Settled new := by
  constructor
  · rintro ⟨-, htext, hcount, hsettled⟩
    simp only [List.drop_left] at htext hcount hsettled
    exact ⟨htext, hcount, hsettled⟩
  · rintro ⟨htext, hcount, hsettled⟩
    refine ⟨List.prefix_append log new, ?_, ?_, ?_⟩
    · rwa [List.drop_left]
    · rwa [List.drop_left]
    · rwa [List.drop_left]

/-! ## What a write does -/

namespace Sink

theorem run_le (accepts : SinkLog → UInt8 → Bool) (log : SinkLog) (text : List UInt8) :
    run accepts log text ≤ text.length := by
  induction text generalizing log with
  | nil => rfl
  | cons b text ih =>
      rw [run, List.length_cons]
      split
      · exact Nat.succ_le_succ (ih _)
      · omega

theorem taken_le (k : Sink) (log : SinkLog) (text : List UInt8) :
    k.taken log text ≤ text.length := by
  cases k with
  | perByte accepts => exact run_le accepts log text
  | block takes => exact Nat.min_le_right _ _

theorem refused_eq_nil_iff (k : Sink) (rest : List UInt8) : k.refused rest = [] ↔ rest = [] := by
  cases k with
  | perByte accepts => simp [refused]
  | block takes => rfl

theorem writeLoop_eq (accepts : SinkLog → UInt8 → Bool) (log : SinkLog) (buffer : List UInt8)
    (n : Nat) :
    Print.writeLoop (fun log b => (log ++ [(b, accepts log b)], if accepts log b then 1 else 0))
        log buffer n =
      ((perByte accepts).after log buffer, n + run accepts log buffer) := by
  induction buffer generalizing log n with
  | nil => simp [Print.writeLoop, after, taken, run, refused, answers]
  | cons b buffer ih =>
      by_cases hb : accepts log b = true
      · simp only [Print.writeLoop, hb, if_true, Nat.one_ne_zero, if_false, ih, after, taken, run]
        rw [Nat.add_assoc, Nat.add_comm 1]
        simp [answers, refused]
      · simp [Print.writeLoop, after, taken, run, refused, answers, hb]

theorem print_writeBuffer (k : Sink) (log : SinkLog) (buffer : List UInt8) :
    k.print.writeBuffer log buffer = (k.after log buffer, k.taken log buffer) := by
  cases k with
  | perByte accepts =>
      refine (writeLoop_eq accepts log buffer 0).trans ?_
      rw [Nat.zero_add]
      rfl
  | block takes => rfl

theorem writeBuffer_clean (k : Sink) (log : SinkLog) {buffer intended : List UInt8}
    (h : buffer <+: intended) : CleanPrefix intended log (k.print.writeBuffer log buffer) := by
  rw [print_writeBuffer, after]
  apply cleanPrefix_iff.mpr
  rw [emitted_answers]
  refine ⟨(List.take_prefix _ _).trans h, ?_, settled_answers _ _⟩
  rw [List.length_take, Nat.min_eq_left (k.taken_le log buffer)]

/-- Two blocks, one after another, leave a clean prefix exactly if the first is taken whole or
nothing of the second is, and what comes out is a prefix at all. -/
theorem writeBuffers_clean_iff (k : Sink) (log : SinkLog) (first second intended : List UInt8) :
    CleanPrefix intended log
        (k.after (k.after log first) second,
          k.taken log first + k.taken (k.after log first) second) ↔
      first.take (k.taken log first) ++ second.take (k.taken (k.after log first) second) <+:
          intended ∧
        (k.taken log first = first.length ∨ k.taken (k.after log first) second = 0) := by
  have hfirst := k.taken_le log first
  have hsecond := k.taken_le (k.after log first) second
  have hnew : k.after (k.after log first) second = log ++
      (answers (first.take (k.taken log first)) (k.refused (first.drop (k.taken log first))) ++
        answers (second.take (k.taken (k.after log first) second))
          (k.refused (second.drop (k.taken (k.after log first) second)))) := by
    rw [← List.append_assoc]
    rfl
  rw [hnew, cleanPrefix_iff, emitted_append, emitted_answers, emitted_answers, settled_append_iff,
    refused_eq_nil_iff, List.drop_eq_nil_iff, List.length_append, List.length_take,
    List.length_take, Nat.min_eq_left hfirst, Nat.min_eq_left hsecond]
  apply and_congr_right
  intro _
  rw [and_iff_right rfl]
  apply or_congr
  · omega
  · rw [List.take_eq_nil_iff]
    constructor
    · rintro (h | rfl)
      · exact h
      · exact Nat.le_zero.mp hsecond
    · exact .inl

end Sink

/-- On an open or closed socket, whatever its `send` does, `WiFiClient` is a sink that takes the
first bytes of a block. -/
theorem wifiClient_eq_block (s : Net.TcpSocket) {send : SinkLog → List UInt8 → Net.Send}
    (hfits : ∀ log buffer, (send log buffer).Fits buffer.length) :
    wifiClient s send =
      (Sink.block fun log buffer => s.write buffer (send log buffer).ret).print := by
  have hle : ∀ log buffer, s.write buffer (send log buffer).ret ≤ buffer.length := by
    intro log buffer
    have hsent := hfits log buffer
    unfold Net.TcpSocket.write
    split
    · exact Nat.zero_le _
    · cases hsend : send log buffer with
      | sent n =>
          rw [hsend] at hsent
          have hpos : 0 < (n : Int) := Int.natCast_pos.mpr hsent.1
          rw [Net.Send.ret, if_pos hpos, Int.toNat_natCast]
          exact hsent.2
      | wouldBlock | hardError => simp [Net.Send.ret]
  have hmin : ∀ log buffer, min (s.write buffer (send log buffer).ret) buffer.length =
      s.write buffer (send log buffer).ret := fun log buffer => Nat.min_eq_left (hle log buffer)
  simp only [wifiClient, Sink.print, hmin]

/-! ## Lines -/

def textOf (str : Option (List UInt8)) : List UInt8 := (str.map cString).getD []

namespace Sink

theorem after_nil (k : Sink) (log : SinkLog) : k.after log [] = log := by
  have hrefused := (k.refused_eq_nil_iff []).mpr rfl
  simp [after, answers, hrefused]

theorem taken_nil (k : Sink) (log : SinkLog) : k.taken log [] = 0 :=
  Nat.le_zero.mp (k.taken_le log [])

theorem print_eq (k : Sink) (log : SinkLog) (str : Option (List UInt8)) :
    k.print.print log str = k.print.writeBuffer log (textOf str) := by
  cases str with
  | none =>
      rw [print_writeBuffer]
      simp [Print.print, Print.write, textOf, after_nil, taken_nil]
  | some memory => rfl

theorem println_eq (k : Sink) (log : SinkLog) (str : Option (List UInt8)) :
    k.print.printlnCString log str =
      (k.after (k.after log (textOf str)) Print.crlf,
        k.taken log (textOf str) + k.taken (k.after log (textOf str)) Print.crlf) := by
  simp only [Print.printlnCString, print_eq, Print.println_eq, print_writeBuffer]

theorem println_clean_iff (k : Sink) (log : SinkLog) (str : Option (List UInt8)) :
    CleanPrefix (textOf str ++ Print.crlf) log (k.print.printlnCString log str) ↔
      k.taken log (textOf str) = (textOf str).length ∨
        k.taken (k.after log (textOf str)) Print.crlf = 0 := by
  rw [println_eq, writeBuffers_clean_iff]
  apply and_iff_right_of_imp
  rintro (hwhole | hnone)
  · rw [hwhole, List.take_length]
    exact (List.prefix_append_right_inj _).mpr (List.take_prefix _ _)
  · rw [hnone, List.take_zero, List.append_nil]
    exact (List.take_prefix _ _).trans (List.prefix_append _ _)

theorem printlnString_clean_iff (k : Sink) (log : SinkLog) (text : WString) :
    CleanPrefix (text.value ++ Print.crlf) log (k.print.printlnString log text) ↔
      (0 ∉ text.value ∧ k.taken log text.value = text.value.length) ∨
        k.taken (k.after log (cString text.cStr)) Print.crlf = 0 := by
  have hline : k.print.printlnString log text = k.print.printlnCString log (some text.cStr) := rfl
  by_cases hnul : 0 ∈ text.value
  · obtain ⟨rest, hrest⟩ := WString.cString_nul hnul
    have hprefix : cString text.cStr <+: text.value ++ Print.crlf := by
      rw [hrest, List.append_assoc]
      exact List.prefix_append _ _
    rw [hline, println_eq, writeBuffers_clean_iff]
    refine Iff.trans ?_ (or_iff_right fun h => h.1 hnul).symm
    simp only [textOf, Option.map_some, Option.getD_some]
    constructor
    · rintro ⟨hout, hwhole | hnone⟩
      · -- the CR would have to stand where the NUL is
        rw [hwhole, List.take_length, hrest, List.append_assoc] at hout
        have hend := (List.prefix_append_right_inj _).mp hout
        by_contra hsome
        obtain ⟨n, hn⟩ := Nat.exists_eq_succ_of_ne_zero hsome
        rw [hn, Print.crlf, List.take_succ_cons, List.cons_append, List.cons_prefix_cons] at hend
        exact absurd hend.1 (by decide)
      · exact hnone
    · intro hnone
      refine ⟨?_, .inr hnone⟩
      rw [hnone, List.take_zero, List.append_nil]
      exact (List.take_prefix _ _).trans hprefix
  · have hwhole : cString text.cStr = text.value := WString.cString_eq_self_iff.mpr hnul
    have hclean := k.println_clean_iff log (some text.cStr)
    simp only [textOf, Option.map_some, Option.getD_some, hwhole] at hclean
    rw [hline, hclean, hwhole, and_iff_right hnul]

end Sink

/-- Blocks and texts leave a clean prefix on every sink. A line does exactly where the sink takes
all of its text (and the text of a `String` has no NUL), or takes nothing of the CR LF that is
offered after it. -/
theorem short_writes (k : Sink) (log : SinkLog) (buffer : List UInt8) (str : Option (List UInt8))
    (text : WString) :
    CleanPrefix buffer log (k.print.writeBuffer log buffer) ∧
    CleanPrefix (textOf str) log (k.print.print log str) ∧
    CleanPrefix text.value log (k.print.printString log text) ∧
    (CleanPrefix (textOf str ++ Print.crlf) log (k.print.printlnCString log str) ↔
      k.taken log (textOf str) = (textOf str).length ∨
        k.taken (k.after log (textOf str)) Print.crlf = 0) ∧
    (CleanPrefix (text.value ++ Print.crlf) log (k.print.printlnString log text) ↔
      (0 ∉ text.value ∧ k.taken log text.value = text.value.length) ∨
        k.taken (k.after log (cString text.cStr)) Print.crlf = 0) := by
  refine ⟨k.writeBuffer_clean log List.prefix_rfl, ?_, ?_, k.println_clean_iff log str,
    k.printlnString_clean_iff log text⟩
  · rw [k.print_eq]
    exact k.writeBuffer_clean log List.prefix_rfl
  · apply k.writeBuffer_clean log
    rw [WString.cStr, WString.cString_terminated]
    exact List.takeWhile_prefix _

/-- A sink refuses the second byte of the line `ab`, and its end comes out right behind the
first. -/
theorem not_println_clean :
    ¬ ∀ (k : Sink) (log : SinkLog) (str : Option (List UInt8)),
      CleanPrefix (textOf str ++ Print.crlf) log (k.print.printlnCString log str) := by
  intro hall
  have hclean := (hall (.perByte fun _ b => b != 98) [] (some [97, 98, 0])).text
  revert hclean
  decide

end ZiModem.Hal.Arduino
