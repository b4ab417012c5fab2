import ServerSsh.Headers

/-!
# Logging a user in

`User_login` looks the user up, has `Login_into_user` check the password with PAM,
and then takes on the group and the user of the account.  Each call may fail, and
each failure returns at once.  Only the path on which everything has gone well so
far calls `pam_end`, nothing takes back what `setgid` has done, and behind the last
call there is no `return`.

`Harmless` is what these three leave of the attempts that return 0 exactly when they
have succeeded and leave the process as it was otherwise (`logins_leave_iff`).
-/

namespace ServerSsh

namespace UserLogin

/-- `PAM_SUCCESS`. -/
def pamSuccess : Int := 0

/-- The fields of `struct passwd` that are used. -/
structure Passwd where
  pwUid : UInt32
  pwGid : UInt32
deriving DecidableEq

/-- The user ids or the group ids of a process. -/
structure Ids where
  real : UInt32
  effective : UInt32
  saved : UInt32
deriving DecidableEq

/-- The result of `setuid` or `setgid`.  Without the privilege a call that succeeds
sets the effective id only. -/
inductive SetId where
  | failed
  | effective
  | all
deriving DecidableEq, Repr

/-- The ids after the call. -/
def SetId.apply (r : SetId) (id : UInt32) (ids : Ids) : Ids :=
  match r with
  | .failed => ids
  | .effective => { ids with effective := id }
  | .all => ⟨id, id, id⟩

/-- The process, as far as a login is about it. -/
@[ext]
structure Process where
  uids : Ids
  gids : Ids
  /-- The number of open PAM handles. -/
  handles : Nat
deriving DecidableEq

/-- The results of the calls in one attempt, as far as they are made. -/
structure Attempt where
  info : Option Passwd
  pamStart : Int
  pamAuthenticate : Int
  pamAcctMgmt : Int
  pamEnd : Int
  setgid : SetId
  setuid : SetId
  /-- What the caller finds where the return value is expected, when the function
  ends without a `return`. -/
  leftOver : Int
deriving DecidableEq

/-- `Login_into_user`, with the number of open handles.  A `pam_end` that fails has
not closed the handle. -/
def loginIntoUser (handles : Nat) (a : Attempt) : Int × Nat :=
  if a.pamStart ≠ pamSuccess then (-1, handles)
  else if a.pamAuthenticate ≠ pamSuccess then (-1, handles + 1)
  else if a.pamAcctMgmt ≠ pamSuccess then (-1, handles + 1)
  else if a.pamEnd ≠ pamSuccess then (-1, handles + 1)
  else (0, handles)

/-- `User_login`. -/
def userLogin (p : Process) (a : Attempt) : Int × Process :=
  match a.info with
  | none => (-1, p)
  | some info =>
      let (ret, handles) := loginIntoUser p.handles a
      let p := { p with handles := handles }
      if ret ≠ 0 then (-1, p)
      else if a.setgid = .failed then (-1, p)
      else
        let p := { p with gids := a.setgid.apply info.pwGid p.gids }
        if a.setuid = .failed then (-1, p)
        else (a.leftOver, { p with uids := a.setuid.apply info.pwUid p.uids })

/-- One attempt of a sequence. -/
structure Login where
  before : Process
  attempt : Attempt
  ret : Int
  after : Process

/-- A sequence of attempts. -/
def logins : Process → List Attempt → List Login
  | _, [] => []
  | p, a :: as => ⟨p, a, (userLogin p a).1, (userLogin p a).2⟩ :: logins (userLogin p a).2 as

/-! ## What is to hold -/

/-- Every call has been made and has succeeded. -/
def Attempt.Succeeds (a : Attempt) : Prop :=
  a.info ≠ none ∧ a.pamStart = pamSuccess ∧ a.pamAuthenticate = pamSuccess ∧
    a.pamAcctMgmt = pamSuccess ∧ a.pamEnd = pamSuccess ∧ a.setgid ≠ .failed ∧ a.setuid ≠ .failed

/-- An attempt returns 0 exactly when it has succeeded, keeps the ids of the process
otherwise, and closes the handles that it opens. -/
structure Login.Leaves (r : Login) : Prop where
  zero : r.ret = 0 ↔ r.attempt.Succeeds
  ids : r.ret ≠ 0 → r.after.uids = r.before.uids ∧ r.after.gids = r.before.gids
  handles : r.after.handles = r.before.handles

/-- PAM lets the user in, and the handle is closed. -/
def Attempt.Admitted (a : Attempt) : Prop :=
  a.pamAuthenticate = pamSuccess ∧ a.pamAcctMgmt = pamSuccess ∧ a.pamEnd = pamSuccess

/-- The `setgid` of the attempt changes nothing. -/
def Attempt.KeepsGroup (p : Process) (a : Attempt) : Prop :=
  ∀ info ∈ a.info, a.setgid.apply info.pwGid p.gids = p.gids

/-- The attempt opens no handle, or closes it again and then fails before it changes
an id, or succeeds with a 0 for the missing return value. -/
def Harmless (p : Process) (a : Attempt) : Prop :=
  a.info = none ∨ a.pamStart ≠ pamSuccess ∨
    a.Admitted ∧ (a.setgid = .failed ∨ a.setuid = .failed ∧ a.KeepsGroup p ∨
      a.setuid ≠ .failed ∧ a.leftOver = 0)

/-! ## One attempt -/

variable {p : Process} {a : Attempt}

/-- A user who is not admitted costs a handle. -/
theorem loginIntoUser_of_not_admitted (h : a.pamStart = pamSuccess) (ha : ¬ a.Admitted)
    (handles : Nat) : loginIntoUser handles a = (-1, handles + 1) := by
  rw [loginIntoUser, if_neg (not_not.mpr h)]
  by_cases hauth : a.pamAuthenticate = pamSuccess
  · by_cases hacct : a.pamAcctMgmt = pamSuccess
    · have hend : a.pamEnd ≠ pamSuccess := fun hend => ha ⟨hauth, hacct, hend⟩
      rw [if_neg (not_not.mpr hauth), if_neg (not_not.mpr hacct), if_pos hend]
    · rw [if_neg (not_not.mpr hauth), if_pos hacct]
  · rw [if_pos hauth]

theorem loginIntoUser_of_admitted (h : a.pamStart = pamSuccess) (ha : a.Admitted)
    (handles : Nat) : loginIntoUser handles a = (0, handles) := by
  obtain ⟨hauth, hacct, hend⟩ := ha
  rw [loginIntoUser, if_neg (not_not.mpr h), if_neg (not_not.mpr hauth),
    if_neg (not_not.mpr hacct), if_neg (not_not.mpr hend)]

theorem loginIntoUser_of_not_started (h : a.pamStart ≠ pamSuccess) (handles : Nat) :
    loginIntoUser handles a = (-1, handles) := if_pos h

theorem userLogin_of_none (h : a.info = none) : userLogin p a = (-1, p) := by
  rw [userLogin, h]

theorem userLogin_of_rejected {info : Passwd} {k : Nat} (hinfo : a.info = some info)
    (h : loginIntoUser p.handles a = (-1, k)) : userLogin p a = (-1, { p with handles := k }) := by
  rw [userLogin, hinfo]
  simp only [h]
  exact if_pos (by decide)

theorem userLogin_of_admitted {info : Passwd} (hinfo : a.info = some info)
    (hs : a.pamStart = pamSuccess) (ha : a.Admitted) :
    userLogin p a =
      if a.setgid = .failed then (-1, p)
      else if a.setuid = .failed then (-1, { p with gids := a.setgid.apply info.pwGid p.gids })
      else (a.leftOver,
        { p with
          uids := a.setuid.apply info.pwUid p.uids
          gids := a.setgid.apply info.pwGid p.gids }) := by
  rw [userLogin, hinfo]
  simp only [loginIntoUser_of_admitted hs ha]
  exact if_neg (not_not.mpr rfl)

/-- What is to hold of an attempt that has failed. -/
theorem leaves_of_failed {r : Login} (hret : r.ret = -1) (hs : ¬ r.attempt.Succeeds) :
    r.Leaves ↔ r.after = r.before := by
  have hne : r.ret ≠ 0 := by
    rw [hret]
    decide
  constructor
  · intro h
    obtain ⟨huids, hgids⟩ := h.ids hne
    exact Process.ext huids hgids h.handles
  · intro h
    exact ⟨iff_of_false hne hs, fun _ => by rw [h]; exact ⟨rfl, rfl⟩, by rw [h]⟩

/-- What comes after `Login_into_user`. -/
theorem leaves_of_admitted {info : Passwd} (hinfo : a.info = some info)
    (hs : a.pamStart = pamSuccess) (ha : a.Admitted) :
    Login.Leaves ⟨p, a, (userLogin p a).1, (userLogin p a).2⟩ ↔
      a.setgid = .failed ∨ a.setuid = .failed ∧ a.KeepsGroup p ∨
        a.setuid ≠ .failed ∧ a.leftOver = 0 := by
  rw [userLogin_of_admitted hinfo hs ha]
  by_cases hg : a.setgid = .failed
  · rw [if_pos hg, leaves_of_failed rfl fun h => h.2.2.2.2.2.1 hg]
    exact iff_of_true rfl (Or.inl hg)
  · rw [if_neg hg, or_iff_right hg]
    by_cases hu : a.setuid = .failed
    · -- The group is not taken back.
      rw [if_pos hu, leaves_of_failed rfl fun h => h.2.2.2.2.2.2 hu, or_iff_left fun h => h.1 hu,
        and_iff_right hu]
      constructor
      · intro h info' hinfo'
        rw [hinfo] at hinfo'
        cases hinfo'
        exact congrArg Process.gids h
      · intro h
        exact Process.ext rfl (h info hinfo) rfl
    · rw [if_neg hu, or_iff_right fun h => hu h.1, and_iff_right hu]
      have hsucc : a.Succeeds := ⟨by simp [hinfo], hs, ha.1, ha.2.1, ha.2.2, hg, hu⟩
      constructor
      · intro h
        exact h.zero.mpr hsucc
      · intro h
        exact ⟨iff_of_true h hsucc, fun hne => absurd h hne, rfl⟩

/-- An attempt leaves the process as it should exactly when it is harmless. -/
theorem userLogin_leaves_iff (p : Process) (a : Attempt) :
    Login.Leaves ⟨p, a, (userLogin p a).1, (userLogin p a).2⟩ ↔ Harmless p a := by
  cases hinfo : a.info with
  | none =>
      rw [userLogin_of_none hinfo, leaves_of_failed rfl fun h => h.1 hinfo]
      exact iff_of_true rfl (Or.inl hinfo)
  | some info =>
      have hsome : a.info ≠ none := by simp [hinfo]
      by_cases hstart : a.pamStart = pamSuccess
      · by_cases hadm : a.Admitted
        · rw [leaves_of_admitted hinfo hstart hadm, Harmless, or_iff_right hsome,
            or_iff_right (not_not.mpr hstart), and_iff_right hadm]
        · -- The handle stays open.
          have hrej := userLogin_of_rejected (p := p) hinfo
            (loginIntoUser_of_not_admitted hstart hadm p.handles)
          rw [hrej, leaves_of_failed rfl fun h => hadm ⟨h.2.2.1, h.2.2.2.1, h.2.2.2.2.1⟩]
          refine iff_of_false ?_ ?_
          · intro h
            exact absurd (congrArg Process.handles h) (Nat.succ_ne_self _)
          · rintro (h | h | h)
            · exact hsome h
            · exact h hstart
            · exact hadm h.1
      · have hrej := userLogin_of_rejected (p := p) hinfo
          (loginIntoUser_of_not_started hstart p.handles)
        rw [hrej, leaves_of_failed rfl fun h => hstart h.2.1]
        exact iff_of_true rfl (Or.inr (Or.inl hstart))

/-! ## A sequence of attempts -/

/-- What an attempt of the sequence has done. -/
theorem eq_of_mem_logins (as : List Attempt) : ∀ (p : Process) (r : Login), r ∈ logins p as →
    r = ⟨r.before, r.attempt, (userLogin r.before r.attempt).1,
      (userLogin r.before r.attempt).2⟩ := by
  induction as with
  | nil =>
      intro p r hr
      cases hr
  | cons a as ih =>
      intro p r hr
      rw [logins, List.mem_cons] at hr
      rcases hr with rfl | hr
      · rfl
      · exact ih _ r hr

/-- In a sequence of any length every attempt leaves the process as it should exactly
when all of them are harmless. -/
theorem logins_leave_iff (p : Process) (as : List Attempt) :
    (∀ r ∈ logins p as, r.Leaves) ↔ ∀ r ∈ logins p as, Harmless r.before r.attempt := by
  refine forall₂_congr ?_
  intro r hr
  rw [eq_of_mem_logins as p r hr]
  exact userLogin_leaves_iff _ _

/-- A wrong password, in a process of root. -/
theorem logins_leak :
    ¬ ∀ (p : Process) (as : List Attempt), ∀ r ∈ logins p as, r.Leaves := by
  intro hclaim
  let p : Process := ⟨⟨0, 0, 0⟩, ⟨0, 0, 0⟩, 0⟩
  let a : Attempt := ⟨some ⟨1000, 1000⟩, 0, 7, 0, 0, .all, .all, 0⟩
  have h := (hclaim p [a] _ (List.mem_cons_self ..)).handles
  exact absurd h (by decide)

end UserLogin

end ServerSsh
