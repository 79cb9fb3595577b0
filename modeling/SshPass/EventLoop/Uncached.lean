import SshPass.EventLoop.Footprint

/-! # The loop without its cache

`Rebuilt` are the runs of the loop when the cached array is dropped before every iteration, so that
`as_pollfds` builds it anew. They have the same calls and answers as the runs of the loop, and reach
the same states but for the array (`runs_iff_rebuilt`): the cache saves work and does nothing
else. -/

namespace SshPass.EventLoop.Uncached

open SshPass.Lib.CallTree SshPass.Lib.Borrow SshPass.Lib.Stateful
open SshPass.Unix.Kernel SshPass.Unix.Registry SshPass.Unix.RegistrySpec SshPass.Unix.Indices
open SshPass.Unix.Cache SshPass.Unix.Dispatch SshPass.Unix.App SshPass.Unix.AppSpec
open SshPass.EventLoop.Program SshPass.EventLoop.Wiring SshPass.EventLoop.Footprint

/-! ### Dropping the array -/

/-- The application without its array. -/
def dropArray (a : UnixApp) : UnixApp :=
  { a with poller := { a.poller with fds := withCache a.poller.fds none } }

/-- The loop without its array. -/
def Loop.dropArray (s : Loop) : Loop := { s with app := Uncached.dropArray s.app }

/-- The runs of the loop over `app` that drop the array before every iteration. -/
inductive Rebuilt (app : UnixApp) : List (List SysEvent) → Loop → Prop
  | start : Rebuilt app [] (Loop.start app)
  | iterate {ts : List (List SysEvent)} {s s' : Loop} {t : List SysEvent} (h : Rebuilt app ts s)
      (hb : (Loop.body.run (Loop.dropArray s)).Exec t (.ok none, s')) : Rebuilt app (ts ++ [t]) s'

variable {f : Fds} {timeout : ℤ} {vec vec' : List Cell} {n : ℕ} {stop stop' : UnixAppStop}
variable {t t₁ : List SysEvent} {res : Except UnixError UnixEvent} {l l' : List Pollfd}
  {c c' : Option (List Pollfd)} {s s' x : Loop}

/-! ### One iteration -/

/-- What the kernel stores depends on the entries alone. -/
theorem storeRevents_eq {F : List Fd} (h : Describes F l) (h' : Describes F l')
    (revents : ℕ → Int16) :
    Poller.storeRevents l F.length revents = Poller.storeRevents l' F.length revents := by
  have hlen : l.length = l'.length := h.length_eq.trans h'.length_eq.symm
  refine List.ext_getElem (by simp [Poller.storeRevents, hlen]) fun k hk hk' => ?_
  simp only [Poller.storeRevents, List.length_mapIdx] at hk hk'
  have hk'' : k < F.length := by rwa [h.length_eq] at hk
  have hfields := congrArg (fun m => m[k]?) (Eq.trans h h'.symm)
  simp only [List.getElem?_map, List.getElem?_eq_getElem hk, List.getElem?_eq_getElem hk',
    Option.map_some, Option.some.injEq, Prod.mk.injEq] at hfields
  simp [Poller.storeRevents, hk'', hfields]

theorem arrayAfter_eq (hc : Coherent (withCache f c)) (hc' : Coherent (withCache f c'))
    (p : Polled) : arrayAfter (withCache f c) p = arrayAfter (withCache f c') p := by
  have hdesc : Describes (fds f) (array (withCache f c)) := hc.describes_array
  have hdesc' : Describes (fds f) (array (withCache f c')) := hc'.describes_array
  have heq := storeRevents_eq hdesc hdesc' p.revents
  rwa [length_fds] at heq

theorem polls_withCache (hc : Coherent (withCache f c)) (hc' : Coherent (withCache f c'))
    (ans : Except Errno Polled) :
    polls (withCache f c) timeout ans = polls (withCache f c') timeout ans :=
  (polls_eq hc ans).trans (polls_eq hc' ans).symm

theorem gets_withCache (hc : Coherent (withCache f c)) (hc' : Coherent (withCache f c'))
    (h : Gets (withCache f c) timeout vec t res l vec') :
    ∃ l', Gets (withCache f c') timeout vec t res l' vec' := by
  have hpoll : ∀ ans, polls (withCache f c) timeout ans = polls (withCache f c') timeout ans :=
    polls_withCache hc hc'
  cases h with
  | fails e =>
    rw [hpoll]
    exact ⟨_, .fails e⟩
  | times p hp =>
    rw [hpoll]
    exact ⟨_, .times p hp⟩
  | nothing p hp hf =>
    rw [arrayAfter_eq hc hc'] at hf
    rw [hpoll]
    exact ⟨_, .nothing p hp hf⟩
  | stdout p hp fd i hf hk =>
    rw [arrayAfter_eq hc hc'] at hf
    rw [hpoll]
    exact ⟨_, .stdout p hp fd i hf hk⟩
  | reads p hp fd i hf hk ans =>
    rw [arrayAfter_eq hc hc'] at hf
    rw [hpoll]
    exact ⟨_, .reads p hp fd i hf hk ans⟩

theorem reaction_withCache : ∀ res : Except UnixError UnixEvent,
    reaction (withCache f c) vec res = reaction (withCache f c') vec res
  | .ok (.PtyMaster _ _) | .ok (.Stdin _ _) => by simp [reaction]
  | .ok (.PtySlave _ _) | .ok .ReadZeroBytes | .ok .PollTimeout | .ok (.Signal _ _ _)
  | .error _ => rfl

theorem reacts_withCache (h : Reacts (withCache f c) vec stop res t stop') :
    Reacts (withCache f c') vec stop res t stop' := by
  cases h with
  | silent h => exact .silent ((reaction_withCache res).symm.trans h)
  | calls a h => exact .calls a ((reaction_withCache res).symm.trans h)

/-- **An iteration** from two rests that differ in the array only. -/
theorem iteration_twin (h : Idle f) (hs : Rested f timeout n s) (hs' : Rested f timeout n s')
    (htwin : Loop.dropArray s = Loop.dropArray s') (hx : (Loop.body.run s).Exec t (.ok none, x)) :
    ∃ x', (Loop.body.run s').Exec t (.ok none, x') ∧ Loop.dropArray x = Loop.dropArray x' ∧
      Rested f timeout n x' := by
  obtain ⟨c, vec, t₁, t₂, res, l, vec', stop, stop', rfl, hlen, hc, rfl, hg, hr, hx, hrest⟩ :=
    body_exec h hs hx
  obtain ⟨-, rfl⟩ := Prod.mk.inj hx
  obtain ⟨c', vec₁, stop₁, rfl, -, hstop, hc'⟩ := hs'
  obtain ⟨rfl, rfl⟩ : vec = vec₁ ∧ stop = stop₁ := by
    simp only [Loop.dropArray, dropArray, resting, appOver, RefCell.new, Loop.mk.injEq,
      UnixApp.mk.injEq, Buffer.mk.injEq, RefCell.mk.injEq] at htwin
    exact ⟨htwin.1.2.1, htwin.2.1⟩
  obtain ⟨l', hg'⟩ := gets_withCache hc hc' hg
  have hstop' : stop'.isStoped = false := by
    obtain ⟨_, _, _, heq, -, hstop', -⟩ := hrest
    simp only [resting, Loop.mk.injEq] at heq
    rwa [heq.2.1]
  have hdesc : Describes (fds f) l' := hg'.describes hc'
  refine ⟨resting (withCache f (some l')) timeout vec' stop', ?_, rfl, some l', vec', stop', rfl,
    hg'.length_eq.trans hlen, hstop', coherent_withCache hdesc⟩
  exact (body_iff (idle_withCache h c')).mpr ⟨t₁, t₂, res, l', vec', rfl, hg',
    (react_iff hstop).mpr ⟨stop', reacts_withCache hr, hstop', rfl⟩⟩

theorem rested_dropArray (hs : Rested f timeout n s) : Rested f timeout n (Loop.dropArray s) := by
  obtain ⟨c, vec, stop, rfl, hlen, hstop, -⟩ := hs
  exact ⟨none, vec, stop, rfl, hlen, hstop, fun l hl => by simp [withCache, RefCell.new] at hl⟩

theorem dropArray_idem (s : Loop) : Loop.dropArray (Loop.dropArray s) = Loop.dropArray s := rfl

/-! ### Runs -/

variable {ops : List Op} {ts : List (List SysEvent)}

theorem rebuilt_of_runs (h : Runs (appOf ops timeout n) ts s) :
    ∃ s', Rebuilt (appOf ops timeout n) ts s' ∧ Loop.dropArray s = Loop.dropArray s' ∧
      Rested (Unix.Indices.run ops) timeout n s' := by
  induction h with
  | start => exact ⟨_, .start, rfl, appOf_rested .start⟩
  | iterate h hb ih =>
    obtain ⟨s', hs', htwin, hrest⟩ := ih
    obtain ⟨x', hx', htwin', hrest'⟩ := iteration_twin (idle_run ops) (appOf_rested h)
      (rested_dropArray hrest) (htwin.trans (dropArray_idem s').symm) hb
    exact ⟨x', hs'.iterate hx', htwin', hrest'⟩

theorem runs_of_rebuilt (h : Rebuilt (appOf ops timeout n) ts s) :
    (∃ s', Runs (appOf ops timeout n) ts s' ∧ Loop.dropArray s = Loop.dropArray s') ∧
      Rested (Unix.Indices.run ops) timeout n s := by
  induction h with
  | start => exact ⟨⟨_, .start, rfl⟩, appOf_rested .start⟩
  | @iterate ts s s₁ t h hb ih =>
    obtain ⟨⟨s', hs', htwin⟩, hrest⟩ := ih
    obtain ⟨x', hx', htwin', -⟩ := iteration_twin (idle_run ops) (rested_dropArray hrest)
      (appOf_rested hs') ((dropArray_idem s).trans htwin) hb
    obtain ⟨_, _, _, _, _, _, _, _, _, -, -, -, -, -, -, hx, hrest'⟩ :=
      body_exec (idle_run ops) (rested_dropArray hrest) hb
    obtain ⟨-, rfl⟩ := Prod.mk.inj hx
    exact ⟨⟨x', hs'.iterate hx', htwin'⟩, hrest'⟩

/-- **The cache is transparent**: over any registry, the loop that builds its array anew for every
iteration has the runs of the loop, and reaches the same states but for the array. -/
theorem runs_iff_rebuilt (ops : List Op) (timeout : ℤ) (n : ℕ) (ts : List (List SysEvent))
    (x : Loop) : (∃ s, Runs (appOf ops timeout n) ts s ∧ Loop.dropArray s = x) ↔
      ∃ s, Rebuilt (appOf ops timeout n) ts s ∧ Loop.dropArray s = x := by
  constructor
  · rintro ⟨s, h, rfl⟩
    obtain ⟨s', hs', htwin, -⟩ := rebuilt_of_runs h
    exact ⟨s', hs', htwin.symm⟩
  · rintro ⟨s, h, rfl⟩
    obtain ⟨⟨s', hs', htwin⟩, -⟩ := runs_of_rebuilt h
    exact ⟨s', hs', htwin.symm⟩

end SshPass.EventLoop.Uncached
