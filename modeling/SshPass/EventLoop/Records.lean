import SshPass.EventLoop.Results
import SshPass.Lib.LittleEndian

/-! # Signal records

The kernel lays a signal out as a record of 128 bytes, with the number of the signal and the pid of
its sender in little-endian order. `map_ref_to_siginfo` reads the record in place. An iteration
answers the first record it reads with the call that its signal and its sender ask for
(`record_answered`), and no other. -/

namespace SshPass.EventLoop.Records

open SshPass.Lib.CallTree SshPass.Lib.LittleEndian
open SshPass.Unix.Kernel SshPass.Unix.Registry SshPass.Unix.RegistrySpec SshPass.Unix.Indices
open SshPass.Unix.App SshPass.Unix.AppSpec
open SshPass.EventLoop.Program SshPass.EventLoop.Wiring SshPass.EventLoop.Footprint
open SshPass.EventLoop.Results (childRecord)

/-! ### The layout -/

/-- The cast `i32 as u32`. -/
def asU32 (i : ℤ) : ℕ := (i % 4294967296).toNat

/-- The record `x` says that the process `pid` has sent the signal `sig`. -/
structure Says (sig : Signal) (pid : Pid) (x : Siginfo) : Prop where
  signo : x.bytes.take 4 = encode 4 sig.number
  pid : (x.bytes.drop 12).take 4 = encode 4 (asU32 pid)

theorem asI32_asU32 {i : ℤ} (hl : -2147483648 ≤ i) (hu : i < 2147483648) : asI32 (asU32 i) = i := by
  unfold asI32 asU32
  split_ifs <;> omega

theorem tryFrom_number (sig : Signal) : Signal.tryFrom (asI32 sig.number) = .ok sig := by
  cases sig <;> rfl

theorem u32At_decode (bs : List UInt8) (off : ℕ) (h : off + 4 ≤ bs.length) :
    u32At bs off = decode ((bs.drop off).take 4) := by
  have hget : ∀ k, bs.getD (off + k) 0 = (bs.drop off).getD k 0 := by
    intro k
    simp [List.getD, List.getElem?_drop]
  have hlen : 4 ≤ (bs.drop off).length := by
    rw [List.length_drop]
    omega
  have hfirst := hget 0
  rw [Nat.add_zero] at hfirst
  rw [u32At, hfirst, hget 1, hget 2, hget 3]
  obtain ⟨a, b, c, d, rest, hbytes⟩ : ∃ a b c d rest, bs.drop off = a :: b :: c :: d :: rest := by
    match bs.drop off, hlen with
    | a :: b :: c :: d :: rest, _ => exact ⟨a, b, c, d, rest, rfl⟩
  rw [hbytes]
  simp [decode]
  omega

/-- **The round trip**: the reader finds the signal and the pid that the kernel has laid out. -/
theorem Says.decodes {sig : Signal} {pid : Pid} {x : Siginfo} (h : Says sig pid x)
    (hl : -2147483648 ≤ pid) (hu : pid < 2147483648) :
    Signal.tryFrom (asI32 x.ssiSigno) = .ok sig ∧ asI32 x.ssiPid = pid := by
  have hlen : x.bytes.length = 128 := x.len
  have hnumber : sig.number < 256 ^ 4 := by cases sig <;> decide
  have hsigno : x.ssiSigno = sig.number := by
    have hfield := u32At_decode x.bytes 0 (by omega)
    rwa [List.drop_zero, h.signo, decode_encode_of_lt hnumber] at hfield
  have hpid : x.ssiPid = asU32 pid := by
    have hfield := u32At_decode x.bytes 12 (by omega)
    have hfits : asU32 pid < 256 ^ 4 := by
      rw [asU32]
      omega
    rwa [h.pid, decode_encode_of_lt hfits] at hfield
  rw [hsigno, hpid]
  exact ⟨tryFrom_number sig, asI32_asU32 hl hu⟩

/-! ### The answer of the loop -/

variable {ops : List Op} {timeout : ℤ} {n : ℕ} {ts : List (List SysEvent)} {s : Loop}
  {t : List SysEvent} {sig : Signal} {pid : Pid} {x : Siginfo} {rest : List UInt8}

theorem result_record {raw : RawFd} {events : Int16} {i : ℕ}
    {c : Chunk (Fd.Signal raw events).kind n} (hx : c.bytes = x.bytes ++ rest)
    (hsig : Signal.tryFrom (asI32 x.ssiSigno) = .ok sig) :
    result (.Signal raw events) i (.ok c) = .ok (.Signal i sig x) := by
  have hlen : x.bytes.length = sizeOfSiginfo := x.len
  have hle : sizeOfSiginfo ≤ c.bytes.length := by
    rw [hx, List.length_append, hlen]
    exact Nat.le_add_right _ _
  have hne : c.bytes ≠ [] := by
    intro hnil
    simp [hnil, sizeOfSiginfo] at hle
  have hhead : head? c.bytes = some x := by
    rw [head?, dif_pos hle]
    congr
    rw [hx, ← hlen, List.take_left]
  rw [result, if_neg hne, eventOf, hhead]
  simp only [hsig]

/-- The call that answers a signal. -/
def answer (sig : Signal) (pid : Pid) : Option Sys :=
  if sig = .SIGINT ∨ sig = .SIGTERM then some .now
  else if sig = .SIGCHLD then some (.waitpid pid)
  else none

/-- A read of a signalfd that `system_event` makes is its last call. -/
theorem gets_record {f : Fds} {vec vec' : List Cell} {res : Except UnixError UnixEvent}
    {l : List Pollfd} (hg : Gets f timeout vec t res l vec') {raw : RawFd}
    {c : Chunk .Signal vec.length} (hread : ⟨.read ⟨.Signal, raw⟩ vec.length, .ok c⟩ ∈ t)
    (hx : c.bytes = x.bytes ++ rest) (hsig : Signal.tryFrom (asI32 x.ssiSigno) = .ok sig) :
    (∃ i, res = .ok (.Signal i sig x)) ∧ ∃ ans, t = [polls f timeout ans,
      ⟨.read ⟨.Signal, raw⟩ vec.length, .ok c⟩] := by
  cases hg with
  | reads p hp fd i hf hk ans =>
    rcases List.mem_cons.mp hread with heq | hread
    · cases heq
    have heq := List.mem_singleton.mp hread
    cases fd with
    | Signal raw' events =>
      cases heq
      exact ⟨⟨i, result_record hx hsig⟩, .ok p, rfl⟩
    | _ => cases heq
  | _ =>
    have heq := List.mem_singleton.mp hread
    cases heq

/-- **The first record of a read is answered**, in any run over any registry: an iteration that
reads some records, the first of them of the signal `sig` from the process `pid`, looks at the clock
for `SIGINT` and `SIGTERM`, waits for exactly the process `pid` for `SIGCHLD`, and makes no other
call. -/
theorem record_answered (hr : Runs (appOf ops timeout n) ts s) (ht : t ∈ ts) {raw : RawFd}
    {c : Chunk .Signal n} (hread : ⟨.read ⟨.Signal, raw⟩ n, .ok c⟩ ∈ t)
    (hx : c.bytes = x.bytes ++ rest) (hs : Says sig pid x) (hl : -2147483648 ≤ pid)
    (hu : pid < 2147483648) : ∃ ans, t.map Event.op =
      [(pollOf (Unix.Indices.run ops) timeout ans).op, .read ⟨.Signal, raw⟩ n] ++
        (answer sig pid).toList := by
  obtain ⟨hsig, hpid⟩ := hs.decodes hl hu
  refine forall_iterations (Q := fun t => ⟨.read ⟨.Signal, raw⟩ n, .ok c⟩ ∈ t → ∃ ans,
    t.map Event.op = [(pollOf (Unix.Indices.run ops) timeout ans).op, .read ⟨.Signal, raw⟩ n] ++
      (answer sig pid).toList) hr ?_ t ht hread
  intro s t y hrest hy hread
  obtain ⟨cache, vec, t₁, t₂, res, l, vec', stop, stop', -, rfl, hc, rfl, hg, hreacts, -, -⟩ :=
    body_exec (idle_run ops) hrest hy
  have hfirst : ⟨.read ⟨.Signal, raw⟩ vec.length, .ok c⟩ ∈ t₁ := by
    refine (List.mem_append.mp hread).resolve_right fun hread => ?_
    exact hreacts.not_read _ hread _ _ rfl
  obtain ⟨⟨i, rfl⟩, ans, rfl⟩ := gets_record hg hfirst hx hsig
  have hreaction : ∀ v, reaction (withCache (Unix.Indices.run ops) cache) v
      (.ok (.Signal i sig x)) = answer sig pid := by
    intro v
    rw [reaction, hpid, answer]
  refine ⟨ans, ?_⟩
  rw [List.map_append, polls_eq hc]
  refine congrArg _ ?_
  cases hreacts with
  | silent hnone => rw [← hreaction vec', hnone]; rfl
  | calls a hsome => rw [← hreaction vec', hsome]; rfl

theorem childRecord_says : Says .SIGCHLD 77 childRecord := ⟨by decide, by decide⟩

/-- A read that returns the record of a child. -/
def childChunk : Chunk .Signal 128 where
  bytes := childRecord.bytes
  le := Nat.le_of_eq childRecord.len
  records _ := ⟨1, childRecord.len⟩

theorem exists_reads {f : Fds} (h : Idle f) (timeout : ℤ) {vec : List Cell}
    (hlen : vec.length = n) {stop : UnixAppStop} (hstop : stop.isStoped = false) {p : Polled}
    (hn : p.n ≠ 0) {raw : RawFd} {events : Int16} {i : ℕ}
    (hf : firstReady (fds f) (arrayAfter f p) f.len 0 = some (.Signal raw events, i))
    (c : Chunk .Signal n) : ∃ t s,
      (Loop.body.run (resting f timeout vec stop)).Exec t (.ok none, s) ∧
        ⟨.read ⟨.Signal, raw⟩ n, .ok c⟩ ∈ t := by
  subst hlen
  obtain ⟨t, x, hx⟩ := (react (cached f (consume (arrayAfter f p) (.Signal raw events))) timeout
    (stored ⟨.Signal, raw⟩ vec (.ok c)) stop (result (.Signal raw events) i (.ok c))).exists_exec
  obtain ⟨stop', -, -, rfl⟩ := (react_iff hstop).mp hx
  have hk : (Fd.Signal raw events).kind ≠ .Stdout := by simp [Fd.kind]
  exact ⟨_, _, (body_iff h).mpr ⟨[_, _], t, _, _, _, rfl,
    .reads p hn (.Signal raw events) i hf hk (.ok c), hx⟩, .tail _ (.head _)⟩

/-- The loop waits for the child. -/
theorem childRecord_answered : ∃ t s, Runs (appOf [.pushSignalFd 3 POLLIN] 200 128) [t] s ∧
    ∃ ans, t.map Event.op = [(pollOf (Unix.Indices.run [.pushSignalFd 3 POLLIN]) 200 ans).op,
      .read ⟨.Signal, 3⟩ 128, .waitpid 77] := by
  have hstop : UnixAppStop.new.isStoped = false := rfl
  have hf : firstReady (fds (Unix.Indices.run [.pushSignalFd 3 POLLIN]))
      (arrayAfter (Unix.Indices.run [.pushSignalFd 3 POLLIN]) ⟨1, fun _ => POLLIN⟩) 1 0 =
        some (.Signal 3 POLLIN, 0) := by decide
  obtain ⟨t, s, hx, hread⟩ := exists_reads (idle_run [.pushSignalFd 3 POLLIN]) 200
    List.length_replicate hstop (by decide) hf childChunk
  have hr : Runs (appOf [.pushSignalFd 3 POLLIN] 200 128) [t] s := Runs.start.iterate hx
  exact ⟨t, s, hr, record_answered hr List.mem_cons_self hread (List.append_nil _).symm
    childRecord_says (by decide) (by decide)⟩

end SshPass.EventLoop.Records
