import SideWork.Lib.Callbacks
import SideWork.Nl80211.ScanResult

/-!
# `nl_get_multicast_id`

The request is answered with messages about the family and an acknowledgement, or with an error. `family_handler` takes
the first group of a message whose name is the one asked for; a later message about the family takes its place. The name
is compared as far as the attribute goes, so an attribute without a NUL also names the groups that begin with it.

- `strncmp_eq_zero_iff`: which attributes name a group;
- `nlGetMulticastId_eq`: what the whole comes to, for all messages in all batches.
-/

namespace SideWork.Nl80211

open Netlink (int32)

/-- A group of `CTRL_ATTR_MCAST_GROUPS`, as far as `family_handler` reads it. -/
structure Mcgrp where
  name : Option Nla
  id : Option Nla

/-- `strncmp`; the arrays end where the program may not read on. -/
def strncmp : List UInt8 → List UInt8 → Nat → Except Stop Int
  | _, _, 0 => .ok 0
  | a :: as, b :: bs, n + 1 =>
    if a ≠ b then .ok ((a.toNat : Int) - b.toNat) else if a = 0 then .ok 0 else strncmp as bs n
  | _, _, _ + 1 => .error .outOfBounds

/-- What the callbacks write: `grp.id` and `ret`. -/
structure HandlerArgs where
  id : Int
  ret : Int
  deriving DecidableEq, Repr

/-- The loop of `family_handler`. The name it looks for ends in a NUL. -/
def familyGroups (e : Endian) (group : List UInt8) : List Mcgrp → Int → Except Stop Int
  | [], id => .ok id
  | mcgrp :: mcgrps, id =>
    match mcgrp.name, mcgrp.id with
    | some name, some grpId => do
      let cmp ← strncmp name.data (group ++ [0]) name.data.length
      if cmp ≠ 0 then familyGroups e group mcgrps id
      else
        let id ← nlaGetU32 e (some grpId)
        return int32 id
    | _, _ => familyGroups e group mcgrps id

/-- `family_handler`, with the groups of the message if it has any. -/
def familyHandler (e : Endian) (group : List UInt8) (mcastGroups : Option (List Mcgrp)) (grp : HandlerArgs) :
    Except Stop (HandlerArgs × Bool) :=
  match mcastGroups with
  | none => .ok (grp, false)
  | some mcgrps => do
    let id ← familyGroups e group mcgrps grp.id
    return ({ grp with id := id }, false)

/-- What arrives. -/
inductive FamilyMessage
  | ack
  | error (errno : ℕ+)
  | family (mcastGroups : Option (List Mcgrp))

/-- `ack_handler`, `error_handler` and `family_handler`. -/
def FamilyMessage.call (e : Endian) (group : List UInt8) :
    FamilyMessage → HandlerArgs → Except Stop (HandlerArgs × Bool)
  | .ack, grp => .ok ({ grp with ret := 0 }, true)
  | .error errno, grp => .ok ({ grp with ret := -(errno : Nat) }, true)
  | .family mcastGroups, grp => familyHandler e group mcastGroups grp

/-- `-ENOENT`. -/
def noent : Int := -2

/-- `nl_get_multicast_id` when the request has been sent, over the batches that come. It has no result while it waits. -/
def nlGetMulticastId (e : Endian) (group : List UInt8) (batches : List (List FamilyMessage)) :
    Except Stop (Option Int) := do
  let grp ← waits (FamilyMessage.call e group) (0 < ·.ret) batches ⟨noent, 1⟩
  return if 0 < grp.ret then none else some (if grp.ret = 0 then grp.id else grp.ret)

variable {e : Endian} {group : List UInt8}

/-! ## The names -/

/-- An attribute names a group: one of them, with its NUL, begins with the other. -/
def Names (group name : List UInt8) : Prop := name <+: group ++ [0] ∨ group ++ [0] <+: name

instance : DecidablePred (Names group) := fun name =>
  inferInstanceAs (Decidable (name <+: group ++ [0] ∨ group ++ [0] <+: name))

/-- It stays inside both arrays. -/
theorem strncmp_eq_ok (as bs : List UInt8) : ∃ r, strncmp as (bs ++ [0]) as.length = .ok r := by
  induction as generalizing bs with
  | nil => exact ⟨0, rfl⟩
  | cons a as ih =>
    cases bs with
    | nil =>
      by_cases ha : a = 0
      · exact ⟨0, by simp [strncmp, ha]⟩
      · exact ⟨_, by simp only [List.nil_append, List.length_cons, strncmp, ne_eq, ha, not_false_iff, if_true]; rfl⟩
    | cons b bs =>
      obtain ⟨r, hr⟩ := ih bs
      by_cases hab : a = b
      · by_cases ha : a = 0
        · exact ⟨0, by simp [strncmp, ← hab, ha]⟩
        · exact ⟨r, by simpa [strncmp, ← hab, ha] using hr⟩
      · exact ⟨(a.toNat : Int) - b.toNat, by simp [strncmp, hab]⟩

theorem strncmp_eq_zero_iff (as bs : List UInt8) (h : 0 ∉ bs) :
    strncmp as (bs ++ [0]) as.length = .ok 0 ↔ Names bs as := by
  unfold Names
  induction as generalizing bs with
  | nil => simp [strncmp]
  | cons a as ih =>
    have hdiff : ∀ b : UInt8, a ≠ b → ((a.toNat : Int) - b.toNat) ≠ 0 := by
      intro b hab h0
      exact hab (UInt8.toNat_inj.mp (by omega))
    cases bs with
    | nil =>
      by_cases ha : a = 0
      · simp [strncmp, ha]
      · have hne := hdiff 0 ha
        simp [strncmp, ha] at hne ⊢
        exact ⟨fun h => absurd h hne, fun h => absurd h.symm ha⟩
    | cons b bs =>
      obtain ⟨hb, hbs⟩ := not_or.mp (List.mem_cons.not.mp h)
      by_cases hab : a = b
      · subst hab
        have ha : a ≠ 0 := fun h0 => hb h0.symm
        simpa [strncmp, ha] using ih bs hbs
      · have hne := hdiff b hab
        simp [strncmp, hab, Ne.symm hab, hne]

/-! ## The messages -/

/-- A group that `family_handler` stops at. -/
def Mcgrp.Wanted (group : List UInt8) (mcgrp : Mcgrp) : Prop :=
  mcgrp.id.isSome ∧ ∃ name ∈ mcgrp.name, Names group name.data

instance : DecidablePred (Mcgrp.Wanted group) := fun mcgrp =>
  inferInstanceAs (Decidable (mcgrp.id.isSome ∧ ∃ name ∈ mcgrp.name, Names group name.data))

/-- The group of a message that is taken. -/
def FamilyMessage.taken (group : List UInt8) : FamilyMessage → Option Mcgrp
  | .family (some mcgrps) => mcgrps.find? (Mcgrp.Wanted group ·)
  | _ => none

/-- What a message that ends the waiting says. -/
def FamilyMessage.answer : FamilyMessage → Option Int
  | .ack => some 0
  | .error errno => some (-(errno : Nat))
  | .family _ => none

theorem familyGroups_eq (h : 0 ∉ group) (mcgrps : List Mcgrp) (id : Int) : familyGroups e group mcgrps id =
    match mcgrps.find? (Mcgrp.Wanted group ·) with
    | none => .ok id
    | some mcgrp => nlaGetU32 e mcgrp.id >>= fun id => .ok (int32 id) := by
  induction mcgrps with
  | nil => rfl
  | cons mcgrp mcgrps ih =>
    obtain ⟨name, grpId⟩ := mcgrp
    match name, grpId with
    | none, _ => simpa [familyGroups, Mcgrp.Wanted] using ih
    | some name, none => simpa [familyGroups, Mcgrp.Wanted] using ih
    | some name, some grpId =>
      obtain ⟨r, hr⟩ := strncmp_eq_ok name.data group
      have hiff := strncmp_eq_zero_iff name.data group h
      rw [hr] at hiff
      by_cases hn : Names group name.data
      · have h0 : r = 0 := Except.ok.inj (hiff.mpr hn)
        simp [familyGroups, hr, h0, Mcgrp.Wanted, hn]
      · have h0 : r ≠ 0 := fun h0 => hn (hiff.mp (congrArg _ h0))
        simpa [familyGroups, hr, h0, Mcgrp.Wanted, hn] using ih

section Family

variable {mcastGroups : Option (List Mcgrp)} (h : 0 ∉ group) (grp : HandlerArgs)
include h

theorem call_none (ht : (FamilyMessage.family mcastGroups).taken group = none) :
    (FamilyMessage.family mcastGroups).call e group grp = .ok (grp, false) := by
  cases mcastGroups with
  | none => rfl
  | some mcgrps =>
    rw [FamilyMessage.taken] at ht
    rw [FamilyMessage.call, familyHandler, familyGroups_eq h, ht]
    rfl

theorem call_some {mcgrp : Mcgrp} (ht : (FamilyMessage.family mcastGroups).taken group = some mcgrp) :
    (FamilyMessage.family mcastGroups).call e group grp =
      nlaGetU32 e mcgrp.id >>= fun id => .ok ({ grp with id := int32 id }, false) := by
  cases mcastGroups with
  | none => cases ht
  | some mcgrps =>
    rw [FamilyMessage.taken] at ht
    rw [FamilyMessage.call, familyHandler, familyGroups_eq h, ht]
    dsimp only
    cases nlaGetU32 e mcgrp.id <;> rfl

end Family

/-- The acknowledgement and the errors end the waiting, and drop the rest. -/
theorem call_waiting {m : FamilyMessage} {grp grp' : HandlerArgs} {drop : Bool} (hw : decide (0 < grp.ret) = true)
    (hc : m.call e group grp = .ok (grp', drop)) : decide (0 < grp'.ret) = !drop := by
  cases m with
  | ack =>
    cases hc
    rfl
  | error errno =>
    cases hc
    simp
  | family mcastGroups =>
    cases mcastGroups with
    | none =>
      cases hc
      simpa using hw
    | some mcgrps =>
      obtain ⟨id, -, hr⟩ := bind_eq_ok hc
      cases hr
      simpa using hw

/-- The groups that are taken from the messages in front of the answer. -/
def takenGroups (group : List UInt8) (ms : List FamilyMessage) : List Mcgrp :=
  (ms.takeWhile (·.answer = none)).filterMap (·.taken group)

/-- The groups are taken one after the other. -/
theorem dispatch_family (h : 0 ∉ group) (ms : List FamilyMessage) (id : Int) :
    dispatch (FamilyMessage.call e group) ms ⟨id, 1⟩ =
      (takenGroups group ms).mapM (fun mcgrp => nlaGetU32 e mcgrp.id) >>=
        fun ids => .ok ⟨(ids.getLast?.map int32).getD id, (ms.findSome? (·.answer)).getD 1⟩ := by
  induction ms generalizing id with
  | nil => rfl
  | cons m ms ih =>
    cases m with
    | ack => rfl
    | error errno => rfl
    | family mcastGroups =>
      have hans : (FamilyMessage.family mcastGroups).answer = none := rfl
      rw [takenGroups, List.takeWhile_cons_of_pos (by simp [hans]), List.findSome?_cons_of_isNone (by simp [hans])]
      cases ht : (FamilyMessage.family mcastGroups).taken group with
      | none =>
        rw [dispatch_again (call_none h _ ht), ih, List.filterMap_cons_none ht]
        rfl
      | some mcgrp =>
        have hcall := call_some (e := e) h ⟨id, 1⟩ ht
        rw [List.filterMap_cons_some ht, List.mapM_cons]
        cases hid : nlaGetU32 e mcgrp.id with
        | error stop =>
          rw [hid, error_bind] at hcall
          rw [dispatch_error hcall]
          rfl
        | ok w =>
          rw [hid, ok_bind] at hcall
          rw [dispatch_again hcall, ih, ok_bind, ← takenGroups]
          cases (takenGroups group ms).mapM fun mcgrp => nlaGetU32 e mcgrp.id with
          | error stop => rfl
          | ok ids =>
            rw [ok_bind, ok_bind, pure_eq_ok, ok_bind, List.getLast?_cons]
            cases ids.getLast? <;> rfl

/-- **The id of the group, or the error of the kernel**, whichever messages come together: the id is that of the last
message in front of the acknowledgement that has the group, its first group of the name, and every id on the way has to
be there in full. Without an answer the program waits. -/
theorem nlGetMulticastId_eq (h : 0 ∉ group) (batches : List (List FamilyMessage)) :
    nlGetMulticastId e group batches =
      (takenGroups group batches.flatten).mapM (fun mcgrp => nlaGetU32 e mcgrp.id) >>= fun ids =>
        .ok ((batches.flatten.findSome? (·.answer)).map fun ret =>
          if ret = 0 then (ids.getLast?.map int32).getD noent else ret) := by
  rw [nlGetMulticastId, waits_flatten (fun _ _ _ _ hw hc => call_waiting hw hc) (by decide), dispatch_family h]
  cases (takenGroups group batches.flatten).mapM fun mcgrp => nlaGetU32 e mcgrp.id with
  | error stop => rfl
  | ok ids =>
    rw [ok_bind, ok_bind, ok_bind]
    cases hans : batches.flatten.findSome? (·.answer) with
    | none => rfl
    | some ret =>
      obtain ⟨m, -, hm⟩ := List.exists_of_findSome?_eq_some hans
      have hle : ret ≤ 0 := by
        cases m with
        | ack => cases hm; rfl
        | error errno => cases hm; simp
        | family mcastGroups => cases hm
      simp [not_lt.mpr hle]

/-- `scan`. -/
def scanGroup : List UInt8 := [115, 99, 97, 110]

/-- A message with the groups `config` and `scan`, and the acknowledgement, in two batches. -/
def familyReply : List (List FamilyMessage) :=
  [[.family (some [⟨some ⟨1, [99, 111, 110, 102, 105, 103, 0]⟩, some ⟨2, [4, 0, 0, 0]⟩⟩,
    ⟨some ⟨1, [115, 99, 97, 110, 0]⟩, some ⟨2, [5, 0, 0, 0]⟩⟩])], [.ack]]

theorem nlGetMulticastId_familyReply : 0 ∉ scanGroup ∧
    nlGetMulticastId .little scanGroup familyReply = .ok (some 5) := by
  have h : 0 ∉ scanGroup := by decide
  refine ⟨h, ?_⟩
  rw [nlGetMulticastId_eq h]
  decide

end SideWork.Nl80211
