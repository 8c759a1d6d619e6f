import ZiModem.Hal.Net.Stream

/-! # What `available()` promises

`available` adds the pushed-back byte to what `FIONREAD` counts, and `read` takes
the two one after the other, with an early exit after each. On a connection that
was not reset the count is exact: it is what a `read` can take, byte for byte,
and what it leaves. The kernel is taken at its word here, so a `recv` hands over
as many bytes as are asked for and queued.
-/

namespace ZiModem.Hal.Net

open Reactive

def Conn.takes (c : Conn) (len : Nat) : Recv :=
  if c.queued = [] then
    match c.peer with
    | .up => .wouldBlock
    | .closed => .closed
    | .reset => .hardError false
  else .data (min len c.queued.length)

/-- The rest of the stream that has arrived: the pushed-back byte, then the queue. -/
def Endpoint.received (s : Endpoint) : List UInt8 := s.sock.pushback ++ s.conn.queued

def Conn.readRet (c : Conn) (bytes : List UInt8) : Int :=
  if bytes = [] then if c.peer = .up then 0 else -1 else bytes.length

/-- What a `read` of `len` bytes shows and leaves, if `available()` has just said `n`. -/
structure TakesAvailable (s : Endpoint) (len : Nat) (n ret : Int) (buf : List UInt8)
    (s' : Endpoint) : Prop where
  some_ready : 0 < n → ret = min (len : Int) n ∧ buf = s.received.take (min (len : Int) n).toNat ∧
    s'.sock.available s'.conn true = n - min (len : Int) n
  none_ready : n = 0 → ret = if s.conn.peer = .up then 0 else -1

theorem Conn.recv_takes {c : Conn} {len : Nat} (hlen : 0 < len) (hqueued : c.queued ≠ []) :
    c.recv len (c.takes len) = some ({ c with queued := c.queued.drop len },
      ((c.queued.take len).length : Int), c.queued.take len) := by
  have hpos : 0 < c.queued.length := List.length_pos_iff.mpr hqueued
  have hmin : 0 < min len c.queued.length ∧ min len c.queued.length ≤ len ∧
      min len c.queued.length ≤ c.queued.length := by omega
  rw [Conn.takes, if_neg hqueued]
  simp only [Conn.recv, if_pos hmin, List.length_take]
  by_cases hle : len ≤ c.queued.length
  · rw [Nat.min_eq_left hle]
  · have hshort : c.queued.length ≤ len := by omega
    rw [Nat.min_eq_right hshort, List.take_of_length_le hshort, List.take_length,
      List.drop_of_length_le hshort, List.drop_length]

/-- A `read` that goes on to `recv` takes what is there, up to `len` bytes in all; with nothing
there it tells an open connection from a closed one. -/
theorem TcpSocket.readRecv_takes {s : TcpSocket} {c : Conn} {written : List UInt8} {len : Nat}
    (hlen : written.length < len) (hpeer : c.peer ≠ .reset)
    (hfits : ((written ++ c.queued).length : Int) ≤ intMax) :
    ∃ res, s.readRecv c written len (c.takes (len - written.length)) = some res ∧
      res.sock = s ∧ res.buf = (written ++ c.queued).take len ∧
      res.conn.queued = (written ++ c.queued).drop len ∧
      res.ret = c.readRet ((written ++ c.queued).take len) := by
  rw [List.take_append, List.drop_append, List.take_of_length_le (by omega),
    List.drop_of_length_le (by omega), List.nil_append]
  rw [List.length_append] at hfits
  by_cases hqueued : c.queued = []
  · simp only [Conn.takes, hqueued, if_true, List.append_nil, List.take_nil, List.drop_nil]
    cases hup : c.peer with
    | up =>
        refine ⟨_, rfl, rfl, List.append_nil written, hqueued, ?_⟩
        cases written <;> simp [Conn.readRet, hup]
    | closed =>
        refine ⟨_, rfl, rfl, List.append_nil written, hqueued, ?_⟩
        cases written <;> simp [Conn.readRet, hup]
    | reset => exact absurd hup hpeer
  · have hrecv := Conn.recv_takes (c := c) (Nat.sub_pos_of_lt hlen) hqueued
    simp only [TcpSocket.readRecv, hrecv]
    refine ⟨_, rfl, rfl, rfl, rfl, ?_⟩
    have hpos : 0 < (c.queued.take (len - written.length)).length := by
      have hsome := List.length_pos_iff.mpr hqueued
      rw [List.length_take]
      omega
    have hle : (c.queued.take (len - written.length)).length ≤ c.queued.length :=
      List.length_take_le' ..
    have hcast : toInt (c.queued.take (len - written.length)).length =
        (c.queued.take (len - written.length)).length := toInt_natCast (by omega)
    have hsum : toInt ((written.length : Int) + (c.queued.take (len - written.length)).length) =
        (written ++ c.queued.take (len - written.length)).length := by
      rw [List.length_append, Int.natCast_add]
      exact toInt_of_range (by simp only [intMax]; omega) (by omega)
    have hne : written ++ c.queued.take (len - written.length) ≠ [] := by
      rw [← List.length_pos_iff, List.length_append]
      omega
    rw [hcast, if_pos (by omega), hsum, Conn.readRet, if_neg hne]

theorem TcpSocket.read_takes {s : Endpoint} (hopen : s.Opened) (hpeer : s.conn.peer ≠ .reset)
    (hfits : (s.received.length : Int) ≤ intMax) {len : Nat} (hlen : 0 < len) :
    ∃ res, s.sock.read s.conn len (s.conn.takes (len - s.sock.pushback.length)) = some res ∧
      res.sock.isOpen = true ∧ res.sock.peeked = none ∧ res.buf = s.received.take len ∧
      res.conn.queued = s.received.drop len ∧
      res.ret = s.conn.readRet (s.received.take len) := by
  obtain ⟨⟨handle, peeked⟩, c⟩ := s
  have hopen' : handle.isSome = true := hopen
  simp only [TcpSocket.read, TcpSocket.isOpen, hopen', Nat.ne_of_gt hlen, Bool.true_eq_false,
    or_self, if_false]
  cases peeked with
  | none =>
      have hempty : ([] : List UInt8).length < len := hlen
      obtain ⟨res, hres, hsock, hrest⟩ :=
        TcpSocket.readRecv_takes (s := ⟨handle, none⟩) hempty hpeer hfits
      exact ⟨res, hres, hsock ▸ hopen, hsock ▸ rfl, hrest⟩
  | some b =>
      by_cases hone : len = 1
      · subst hone
        exact ⟨_, rfl, hopen', rfl, rfl, rfl, rfl⟩
      · have hmore : [b].length < len := by
          rw [List.length_singleton]
          omega
        obtain ⟨res, hres, hsock, hrest⟩ :=
          TcpSocket.readRecv_takes (s := ⟨handle, none⟩) hmore hpeer hfits
        simp only [if_neg hone]
        exact ⟨res, hres, hsock ▸ hopen', hsock ▸ rfl, hrest⟩

theorem Endpoint.available_eq {s : Endpoint} (hopen : s.Opened)
    (hcount : s.conn.bytesAvailableNative true = s.conn.queued.length) :
    s.sock.available s.conn true = s.received.length := by
  rw [TcpSocket.available, hopen, if_neg (by decide), hcount, Endpoint.received, List.length_append]
  unfold TcpSocket.pushback
  cases s.sock.peeked with
  | none => simp
  | some b =>
      simp
      omega

/-- In every state that calls and arrivals lead to, as long as the far end has not reset: if
`FIONREAD` counts the queue and `available()` says `n`, the next `read` takes exactly what `n`
promises. -/
theorem available_exact {native : Nat} {c : Conn} {as : List StreamAction} {s : Endpoint}
    {os : List StreamEvent} (hrun : tcpStream.run (.opened native c) as = some (s, os))
    (hpeer : s.conn.peer ≠ .reset) {n : Int} (havailable : s.sock.available s.conn true = n)
    (hcount : s.conn.bytesAvailableNative true = s.conn.queued.length) (hint : n ≤ intMax)
    {len : Nat} (hlen : 0 < len) :
    ∃ s' ret buf handed,
      tcpStream.step s (.read len (s.conn.takes (len - s.sock.pushback.length))) =
        some (s', .read ret buf handed) ∧ TakesAvailable s len n ret buf s' := by
  have hstart : (Endpoint.opened native c).Opened := rfl
  have hopen : s.Opened := Machine.invariant (M := tcpStream)
    (fun s a s' o hs hstep => step_opened hs hstep) hstart hrun
  obtain rfl : n = s.received.length := havailable.symm.trans (Endpoint.available_eq hopen hcount)
  obtain ⟨res, hread, hopen', hpeeked, hbuf, hqueued, hret⟩ :=
    TcpSocket.read_takes hopen hpeer hint hlen
  have hstep : tcpStream.step s (.read len (s.conn.takes (len - s.sock.pushback.length))) =
      some (⟨res.sock, res.conn⟩, .read res.ret res.buf res.handed) := by
    show Endpoint.step s (.read len _) = _
    simp only [Endpoint.step, hread]
  refine ⟨_, _, _, _, hstep, ?_, ?_⟩
  · intro hpos
    have hmin : min (len : Int) s.received.length = (s.received.take len).length := by
      rw [List.length_take]
      omega
    have hsome : s.received.take len ≠ [] := by
      rw [← List.length_pos_iff, List.length_take]
      omega
    have hleft : (Endpoint.mk res.sock res.conn).received = s.received.drop len := by
      rw [Endpoint.received, hqueued, TcpSocket.pushback, hpeeked]
      rfl
    have hcount' : res.conn.bytesAvailableNative true = res.conn.queued.length := by
      have hshort : res.conn.queued.length ≤ s.received.length := by
        rw [hqueued, List.length_drop]
        omega
      rw [Conn.bytesAvailableNative, if_pos rfl]
      exact toInt_natCast (by omega)
    refine ⟨?_, ?_, ?_⟩
    · rw [hret, Conn.readRet, if_neg hsome, hmin]
    · rw [hbuf, hmin, Int.toNat_natCast, List.length_take]
      exact List.take_eq_take_min
    · rw [Endpoint.available_eq (s := ⟨res.sock, res.conn⟩) hopen' hcount', hleft, List.length_drop]
      omega
  · intro hnone
    have hnil : s.received = [] := List.eq_nil_of_length_eq_zero (by omega)
    rw [hret, hnil, List.take_nil, Conn.readRet, if_pos rfl]

/-- Three bytes arrive and the first is peeked: `available()` says 3, and a read of two takes the
pushed-back byte and one from the queue. -/
theorem available_exact_peeked :
    ∃ s' ret buf handed,
      tcpStream.step ⟨⟨some 3, some 1⟩, ⟨[2, 3], .up, false⟩⟩ (.read 2 (.data 1)) =
        some (s', .read ret buf handed) ∧
      TakesAvailable ⟨⟨some 3, some 1⟩, ⟨[2, 3], .up, false⟩⟩ 2 3 ret buf s' := by
  have hrun : tcpStream.run (.opened 3 ⟨[], .up, false⟩) [.arrive [1, 2, 3], .peekByte (.data 1)] =
      some (⟨⟨some 3, some 1⟩, ⟨[2, 3], .up, false⟩⟩, [.peer, .peekByte 1 [1]]) := rfl
  exact available_exact hrun (by decide) rfl rfl (by decide) (by decide)

end ZiModem.Hal.Net
