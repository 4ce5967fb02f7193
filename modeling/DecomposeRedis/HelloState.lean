/-
What a failed HELLO leaves behind (networking.c, `helloCommand`).

The options are applied one by one, so that an error finds the client with the options before
it applied (`helloOptions_spec`).  `helloCommand_keeps_iff` says when that is as before.

`HelloFails` says that HELLO replies with an error: `helloFails_iff_error` compares it with
what is queued for a client that takes replies, where every empty name has queued an OK.
-/
import DecomposeRedis.ClientCommands
import Mathlib.Data.List.TakeWhile

namespace Networking

open Sds Holes
open Resp hiding Bytes

/-- The version is a number that HELLO knows. -/
def KnownVersion (h : Helpers) (ver : Bytes) : Prop :=
  ∃ n, h.getLongLongFromObject ver = some n ∧ 2 ≤ n ∧ n ≤ 3

/-- HELLO replies with an error: the version is bad, an option is an error, or the client is
not authenticated after them. -/
def HelloFails (h : Helpers) (c : Caller) (ver : Bytes) (args : List Bytes) : Prop :=
  ¬ (KnownVersion h ver ∧ Greeted h c args)

/-- What of the client HELLO can change. -/
def Caller.session (c : Caller) : Version × Option Bytes × Bytes × Bool :=
  (c.resp, c.name, c.user, c.authenticated)

/-- What an option does to the client. -/
def HelloOption.apply (c : Caller) : HelloOption → Caller
  | .auth user _ => { c with authenticated := true, user := user }
  | .setname name => { c with name := if name = [] then none else some name }

/-- The options before the first error. -/
def appliedOptions (h : Helpers) (args : List Bytes) : List HelloOption :=
  (HelloOption.ofArgs args).1.takeWhile (·.accepted h)

/-- The name that an option sets, where the empty name is none. -/
def HelloOption.newName : HelloOption → Option (Option Bytes)
  | .auth _ _ => none
  | .setname name => some (if name = [] then none else some name)

/-- The user that an option authenticates. -/
def HelloOption.newUser : HelloOption → Option Bytes
  | .auth user _ => some user
  | .setname _ => none

/-- The last name and the last user before the first error are those that the client has. -/
structure SessionKept (h : Helpers) (c : Caller) (args : List Bytes) : Prop where
  name : ∀ name ∈ ((appliedOptions h args).filterMap HelloOption.newName).getLast?, name = c.name
  user : ∀ user ∈ ((appliedOptions h args).filterMap HelloOption.newUser).getLast?, user = c.user ∧
    c.authenticated = true

section

variable {sh : Shared} {h : Helpers} {srv : ServerInfo} {slack : ℕ → ℕ} {c : Caller}
  {args : List Bytes} {name : Bytes}

theorem clientSetNameOrReply_accepted (ha : (HelloOption.setname name).accepted h) :
    (clientSetNameOrReply h slack c name).1 = (HelloOption.setname name).apply c ∧
      (clientSetNameOrReply h slack c name).2.2 = true := by
  have hvalid : ∀ b ∈ name, 33 ≤ b ∧ b ≤ 126 := by simpa [HelloOption.accepted] using ha
  rw [clientSetNameOrReply, HelloOption.apply]
  split_ifs
  · exact ⟨rfl, rfl⟩
  · exact ⟨rfl, rfl⟩

theorem clientSetNameOrReply_rejected (ha : ¬ (HelloOption.setname name).accepted h) :
    (clientSetNameOrReply h slack c name).1 = c ∧ (clientSetNameOrReply h slack c name).2.2
      = false := by
  rw [clientSetNameOrReply_invalid (by simpa [HelloOption.accepted] using ha)]
  exact ⟨rfl, rfl⟩

theorem accepted_of_done (hdone : (clientSetNameOrReply h slack c name).2.2 = true) :
    (HelloOption.setname name).accepted h := by
  by_contra hno
  rw [(clientSetNameOrReply_rejected hno).2] at hdone
  cases hdone

/-- The options before the first error are applied, and no others. -/
theorem helloOptions_spec (args : List Bytes) :
    (helloOptions h slack c args).1 = (appliedOptions h args).foldl HelloOption.apply c ∧
      ((helloOptions h slack c args).2.2 = true ↔
        (HelloOption.ofArgs args).2 = true ∧ ∀ o ∈ (HelloOption.ofArgs args).1, o.accepted h) := by
  fun_induction helloOptions h slack c args with
  | case1 => exact ⟨rfl, by simp [HelloOption.ofArgs]⟩
  | case2 c opt user password args hopt hauth ih =>
    have haccepted : (HelloOption.auth user password).accepted h := hauth
    rw [ih.1, ih.2, appliedOptions, appliedOptions, HelloOption.ofArgs.eq_2 _ _ _ _ hopt,
      List.takeWhile_cons_of_pos haccepted]
    exact ⟨rfl, by simp [haccepted]⟩
  | case3 c opt user password args hopt hauth =>
    have haccepted : ¬ (HelloOption.auth user password).accepted h := hauth
    rw [appliedOptions, HelloOption.ofArgs.eq_2 _ _ _ _ hopt, List.takeWhile_cons_of_neg haccepted]
    exact ⟨rfl, by simp [haccepted]⟩
  | case4 c opt name args hopt x hdone y hauth ih =>
    have haccepted : (HelloOption.setname name).accepted h := accepted_of_done hdone
    rw [appliedOptions, HelloOption.ofArgs.eq_3 _ _ _ hopt hauth,
      List.takeWhile_cons_of_pos haccepted, List.foldl_cons,
      ← (clientSetNameOrReply_accepted haccepted).1]
    refine ⟨ih.1, ?_⟩
    show y.2.2 = true ↔ _
    rw [ih.2]
    simp [haccepted]
  | case5 c opt name args hopt x hdone hauth =>
    have haccepted : ¬ (HelloOption.setname name).accepted h :=
      fun hyes => hdone (clientSetNameOrReply_accepted hyes).2
    rw [appliedOptions, HelloOption.ofArgs.eq_3 _ _ _ hopt hauth,
      List.takeWhile_cons_of_neg haccepted, show x.2.2 = true ↔ False by simp [hdone]]
    exact ⟨(clientSetNameOrReply_rejected haccepted).1, by simp [haccepted]⟩
  | case6 c opt args hauth hsetname =>
    rw [appliedOptions, HelloOption.ofArgs.eq_4 _ _ hauth hsetname]
    exact ⟨rfl, by simp⟩

/-! ### The options one after the other -/

/-- The last option that sets a part of the client tells what it is. -/
theorem foldl_apply {β : Type} {f : Caller → β} {g : HelloOption → Option β}
    (hf : ∀ c o, f (o.apply c) = (g o).getD (f c)) (opts : List HelloOption) :
    ∀ c, f (opts.foldl HelloOption.apply c) = ((opts.filterMap g).getLast?).getD (f c) := by
  induction opts with
  | nil => exact fun c => rfl
  | cons o opts ih =>
    intro c
    rw [List.foldl_cons, ih, hf]
    cases hg : g o with
    | none => simp [hg]
    | some b => simp [hg, List.getLast?_cons]

theorem apply_authenticated (opts : List HelloOption) (c : Caller) :
    (opts.foldl HelloOption.apply c).authenticated =
      (c.authenticated || ((opts.filterMap HelloOption.newUser).getLast?).isSome) := by
  rw [@foldl_apply _ Caller.authenticated (fun o => o.newUser.map fun _ => true)
    fun c o => by cases o <;> rfl,
    ← List.map_filterMap, List.getLast?_map]
  cases (opts.filterMap HelloOption.newUser).getLast? <;> simp

theorem apply_session_iff (args : List Bytes) :
    ((appliedOptions h args).foldl HelloOption.apply c).session = c.session ↔
      SessionKept h c args := by
  rw [Caller.session, Caller.session, @foldl_apply _ Caller.resp (fun _ => none)
    fun c o => by cases o <;> rfl,
    @foldl_apply _ Caller.name HelloOption.newName fun c o => by cases o <;> rfl,
    @foldl_apply _ Caller.user HelloOption.newUser fun c o => by
      cases o <;> rfl, apply_authenticated,
    List.filterMap_none]
  simp only [List.getLast?_nil, Option.getD_none, Prod.mk.injEq, true_and]
  constructor
  · rintro ⟨hname, huser, hauth⟩
    refine ⟨fun name hn => ?_, fun user hu => ?_⟩
    · rw [Option.mem_def.1 hn] at hname
      exact hname
    · rw [Option.mem_def.1 hu] at huser hauth
      exact ⟨huser, by simpa using hauth⟩
  · intro hkept
    refine ⟨?_, ?_, ?_⟩
    · cases hn : ((appliedOptions h args).filterMap HelloOption.newName).getLast? with
      | none => rfl
      | some name => exact hkept.name name hn
    · cases hu : ((appliedOptions h args).filterMap HelloOption.newUser).getLast? with
      | none => rfl
      | some user => exact (hkept.user user hu).1
    · cases hu : ((appliedOptions h args).filterMap HelloOption.newUser).getLast? with
      | none => simp
      | some user => simp [(hkept.user user hu).2]

/-! ### The command -/

theorem known_version_iff {ver : Bytes} :
    ((h.getLongLongFromObject ver).filter fun n => 2 ≤ n ∧ n ≤ 3).isSome ↔ KnownVersion h ver := by
  rw [KnownVersion, Option.isSome_iff_exists]
  simp [Option.filter_eq_some_iff]

/-- The options are all applied when there is no error among them. -/
theorem appliedOptions_of_accepted (ha : ∀ o ∈ (HelloOption.ofArgs args).1, o.accepted h) :
    appliedOptions h args = (HelloOption.ofArgs args).1 := List.takeWhile_eq_self_iff.2 ha

/-- The client after the options is authenticated iff it was or there is an AUTH. -/
theorem applied_authenticated_iff (ha : ∀ o ∈ (HelloOption.ofArgs args).1, o.accepted h) :
    ((appliedOptions h args).foldl HelloOption.apply c).authenticated = true ↔
      c.authenticated = true ∨ ∃ o ∈ (HelloOption.ofArgs args).1, o.isAuth := by
  rw [apply_authenticated, appliedOptions_of_accepted ha, Bool.or_eq_true,
    List.getLast?_isSome, ne_eq, List.filterMap_eq_nil_iff]
  refine or_congr_right ?_
  rw [not_forall]
  refine exists_congr fun o => ?_
  cases o <;> simp [HelloOption.newUser, HelloOption.isAuth]

/-- A failed HELLO leaves the options before the error applied. -/
theorem helloCommand_caller_of_fails {ver : Bytes} (hfail : HelloFails h c ver args) :
    (helloCommand sh h srv slack c ver args).caller =
      if ((h.getLongLongFromObject ver).filter fun n => 2 ≤ n ∧ n ≤ 3).isSome
      then (appliedOptions h args).foldl HelloOption.apply c else c := by
  rw [helloCommand]
  cases hver : (h.getLongLongFromObject ver).filter fun n => 2 ≤ n ∧ n ≤ 3 with
  | none => rfl
  | some n =>
    have hknown : KnownVersion h ver := known_version_iff.1 (by rw [hver]; rfl)
    rw [if_pos Option.isSome_some, ← (@helloOptions_spec h slack c args).1]
    dsimp only
    by_cases hdone : (helloOptions h slack c args).2.2 = true
    · have hall := (helloOptions_spec args).2.1 hdone
      have hauth : (helloOptions h slack c args).1.authenticated = false := by
        by_contra hyes
        rw [Bool.not_eq_false, (helloOptions_spec args).1, applied_authenticated_iff hall.2] at hyes
        exact hfail ⟨hknown, hall.1, hall.2, hyes⟩
      rw [if_neg (by simp [hdone]), if_pos (by simp [hauth])]
    · rw [if_pos (by simpa using hdone)]

/-- **A failed HELLO.**  The version, the name, the user and the authentication of the client
are as before iff the options before the error set what the client had. -/
theorem helloCommand_keeps_iff {ver : Bytes} {args : List Bytes} (hfail : HelloFails h c ver args) :
    (helloCommand sh h srv slack c ver args).caller.session = c.session ↔
      (KnownVersion h ver → SessionKept h c args) := by
  rw [helloCommand_caller_of_fails hfail, ← apply_session_iff, ← known_version_iff]
  split_ifs with hver
  · exact ⟨fun heq _ => heq, fun heq => heq hver⟩
  · exact ⟨fun _ hknown => absurd hknown hver, fun _ => rfl⟩

/-! ### The reply -/

/-- The empty names among the options that are applied. -/
def emptyNames (h : Helpers) (args : List Bytes) : ℕ :=
  (appliedOptions h args).countP fun o => o.newName = some none

/-- The OKs before the end of HELLO: the options are looked at if the version is known. -/
def oksBefore (h : Helpers) (ver : Bytes) (args : List Bytes) : ℕ :=
  if ((h.getLongLongFromObject ver).filter fun n => 2 ≤ n ∧ n ≤ 3).isSome then emptyNames h args
  else 0

/-- What is queued is `n` OKs and then `s`. -/
def AfterOks (n : ℕ) (a : Emit) (s : Bytes) : Prop :=
  Appends a ((List.replicate n (text "+OK\r\n")).flatten ++ s)

/-- After `n` OKs an error is queued. -/
def ErrorReply (n : ℕ) (a : Emit) : Prop := ∃ s, AfterOks n a (45 :: (s ++ [13, 10]))

theorem Appends.unique {a : Emit} {s t : Bytes} (hs : Appends a s) (ht : Appends a t) : s = t := by
  obtain ⟨k, hk, -, -, hpending⟩ := hs ⟨.empty, 0⟩ sink_ready_empty
  obtain ⟨k', hk', -, -, hpending'⟩ := ht ⟨.empty, 0⟩ sink_ready_empty
  obtain rfl : k = k' := Except.ok.inj (hk.symm.trans hk')
  have heq : ofList s = ofList t := List.append_cancel_left (hpending.symm.trans hpending')
  exact List.map_injective_iff.mpr Sum.inl_injective heq

/-- The loop has queued `n` OKs, and the error that ends it. -/
def LoopReply (n : ℕ) (x : Caller × Emit × Bool) : Prop :=
  if x.2.2 then AfterOks n x.2.1 [] else ErrorReply n x.2.1

theorem LoopReply.of_error {a : Emit} {t : Bytes}
    (ha : Appends a (45 :: (errorText t ++ [13, 10]))) : LoopReply 0 (c, a, false) :=
  ⟨errorText t, ha⟩

/-- What is queued before the loop goes on is queued before its reply. -/
theorem LoopReply.andThen {n k : ℕ} {x : Caller × Emit × Bool} (hx : LoopReply n x) {a : Emit}
    (ha : Appends a (List.replicate k (text "+OK\r\n")).flatten) (c : Caller) :
    LoopReply (k + n) (c, a.andThen x.2.1, x.2.2) := by
  have happend : ∀ s, AfterOks n x.2.1 s → AfterOks (k + n) (a.andThen x.2.1) s := by
    intro s hs
    refine (ha.andThen hs).of_eq ?_
    rw [List.replicate_add, List.flatten_append, List.append_assoc]
  rw [LoopReply] at hx ⊢
  split_ifs at hx ⊢
  · exact happend [] hx
  · obtain ⟨t, ht⟩ := hx
    exact ⟨t, happend _ ht⟩

/-- The loop queues an OK for each empty name that is applied. -/
theorem helloOptions_reply (hh : h.Sound) (hc : c.flags.Takes) (args : List Bytes) :
    LoopReply (emptyNames h args) (helloOptions h slack c args) := by
  fun_induction helloOptions h slack c args with
  | case1 => exact appends_skip
  | case2 c opt user password args hopt hauth ih =>
    have haccepted : (HelloOption.auth user password).accepted h := hauth
    have hnone : emptyNames h (opt :: user :: password :: args) = emptyNames h args := by
      rw [emptyNames, appliedOptions, HelloOption.ofArgs.eq_2 _ _ _ _ hopt,
        List.takeWhile_cons_of_pos haccepted,
          List.countP_cons_of_neg (by simp [HelloOption.newName])]
      rfl
    rw [hnone]
    exact ih hc
  | case3 c opt user password args hopt hauth =>
    have haccepted : ¬ (HelloOption.auth user password).accepted h := hauth
    rw [emptyNames, appliedOptions, HelloOption.ofArgs.eq_2 _ _ _ _ hopt,
      List.takeWhile_cons_of_neg haccepted]
    exact .of_error (appends_addReplyError hc (by decide))
  | case4 c opt name args hopt x hdone y hauth ih =>
    have haccepted := accepted_of_done hdone
    have hvalid : ∀ b ∈ name, 33 ≤ b ∧ b ≤ 126 := by simpa [HelloOption.accepted] using haccepted
    have hone : emptyNames h (opt :: name :: args) =
        (if name = [] then 1 else 0) + emptyNames h args := by
      rw [emptyNames, appliedOptions, HelloOption.ofArgs.eq_3 _ _ _ hopt hauth,
        List.takeWhile_cons_of_pos haccepted, List.countP_cons, Nat.add_comm]
      refine congrArg₂ (· + ·) ?_ rfl
      by_cases hname : name = [] <;> simp [HelloOption.newName, hname]
    obtain ⟨-, hflags, -, -, p, ha, hp⟩ :=
      clientSetNameOrReply_valid hh hc hvalid (show clientSetNameOrReply h slack c name
        = x from rfl)
    rw [hone]
    refine (ih (hflags ▸ hc)).andThen (ha.of_eq ?_) y.1
    split_ifs at hp ⊢
    · rw [hp]
      rfl
    · rw [hp]
      rfl
  | case5 c opt name args hopt x hdone hauth =>
    have haccepted : ¬ (HelloOption.setname name).accepted h :=
      fun hyes => hdone (clientSetNameOrReply_accepted hyes).2
    rw [emptyNames, appliedOptions, HelloOption.ofArgs.eq_3 _ _ _ hopt hauth,
      List.takeWhile_cons_of_neg haccepted]
    rw [show x = _ from
      clientSetNameOrReply_invalid (by simpa [HelloOption.accepted] using haccepted)]
    exact .of_error (appends_addReplyError hc clean_badName)
  | case6 c opt args hauth hsetname =>
    rw [emptyNames, appliedOptions, HelloOption.ofArgs.eq_4 _ _ hauth hsetname]
    exact .of_error (appends_addReplyErrorFormat hc _)

/-- The map of HELLO begins with the byte of a map or of an array. -/
theorem helloMap_head (srv : ServerInfo) (slack : ℕ → ℕ) (hsh : sh.Literal) (hh : h.Sound)
    (hc : c.flags.Takes) :
    ∃ b t, b ≠ 45 ∧ Appends ((Emit.addReplyMapLen sh c.flags slack c.resp 7).andThen
      (Emit.seq (helloElements sh h srv slack c))) (b :: t) := by
  have helements : (∀ a ∈ helloElements sh h srv slack c, OneValue c.resp a) ∧ _ :=
    helloElements_spec hsh hh hc
  obtain ⟨ss, xs, ha, -, -⟩ := appends_seq helements.1
  refine ⟨(Tag.aggregate (kindIn c.resp .map)).byte, _, ?_,
    (appends_addReplyLen hsh hc .map 14).andThen ha⟩
  cases c.resp <;> decide

/-- A client that takes replies gets an error from HELLO iff HELLO fails, after an OK for each
empty name that was applied. -/
theorem helloFails_iff_error (hsh : sh.Literal) (hh : h.Sound) (hc : c.flags.Takes) (ver : Bytes)
    (args : List Bytes) :
    HelloFails h c ver args ↔
      ErrorReply (oksBefore h ver args) (helloCommand sh h srv slack c ver args).emit := by
  rw [helloCommand, oksBefore]
  cases hver : (h.getLongLongFromObject ver).filter fun n => 2 ≤ n ∧ n ≤ 3 with
  | none =>
    have hclean : Clean (text "-NOPROTO unsupported protocol version") := by decide
    refine iff_of_true (fun hgreeted => ?_) ⟨_, appends_addReplyError hc hclean⟩
    exact absurd (known_version_iff.2 hgreeted.1) (by rw [hver]; decide)
  | some n =>
    have hknown : KnownVersion h ver := known_version_iff.1 (by rw [hver]; rfl)
    have hloop : HelloLoop h c _ (helloOptions h slack c args) := helloOptions_loop hh hc args
    have hreply : LoopReply _ (helloOptions h slack c args) := helloOptions_reply hh hc args
    rw [if_pos Option.isSome_some]
    generalize helloOptions h slack c args = x at hloop hreply
    have hflags : x.1.flags.Takes := hloop.flags_eq ▸ hc
    rw [LoopReply] at hreply
    dsimp only
    by_cases hdone : x.2.2
    · have hall := hloop.done_iff.mp hdone
      have hauth_iff := hloop.authenticated_iff hdone
      rw [if_pos hdone, AfterOks, List.append_nil] at hreply
      rw [if_neg (by simp [hdone])]
      by_cases hauth : x.1.authenticated
      · rw [if_neg (by simp [hauth])]
        refine iff_of_false (fun hfail => hfail ⟨hknown, hall.1, hall.2, hauth_iff.mp hauth⟩) ?_
        rintro ⟨e, herror⟩
        obtain ⟨b, t, hb, hmap⟩ := helloMap_head
          (c := { x.1 with resp := if n = 2 then .resp2 else .resp3 }) srv slack hsh hh hflags
        have heq := List.append_cancel_left (herror.unique (hreply.andThen hmap))
        exact hb (List.cons.inj heq).1.symm
      · rw [if_pos (by simp [hauth])]
        refine iff_of_true (fun hgreeted => hauth (hauth_iff.mpr hgreeted.2.2.2))
          ⟨errorText (text helloNoauth), ?_⟩
        exact hreply.andThen (appends_addReplyError hflags (by decide +kernel))
    · rw [if_neg hdone] at hreply
      rw [if_pos (by simp [hdone])]
      exact iff_of_true
        (fun hgreeted => hdone (hloop.done_iff.mpr ⟨hgreeted.2.1, hgreeted.2.2.1⟩)) hreply

end

/-- The name is set though an argument after it is no option. -/
theorem hello_error_sets_name :
    HelloFails plainHelpers plainCaller (text "3") [text "SETNAME", text "me", text "x"] ∧
      plainCaller.name = none ∧
      (helloCommand literals plainHelpers (plainServer false) (fun _ => 0) plainCaller (text "3")
        [text "SETNAME", text "me", text "x"]).caller.name = some (text "me") := by
  refine ⟨fun hgreeted => absurd hgreeted.2.1 (by decide), rfl, by decide⟩

/-- Two names are removed and one is set before the argument that is no option. -/
theorem bad_option_error :
    ErrorReply 2 (helloCommand literals plainHelpers (plainServer false) (fun _ => 0) plainCaller
      (text "3") [text "SETNAME", [], text "SETNAME", text "me", text "SETNAME",
        [], text "x"]).emit := by
  refine (helloFails_iff_error literals_literal plainHelpers_sound ⟨rfl, rfl⟩ (text "3")
    [text "SETNAME", [], text "SETNAME", text "me", text "SETNAME", [], text "x"]).mp
    fun hgreeted => ?_
  exact absurd hgreeted.2.1 (by decide)

theorem helloCommand_keeps_iff_plain :
    (helloCommand literals plainHelpers (plainServer false) (fun _ => 0) plainCaller (text "3")
        [text "SETNAME", text "me", text "x"]).caller.session = plainCaller.session ↔
      (KnownVersion plainHelpers (text "3") →
        SessionKept plainHelpers plainCaller [text "SETNAME", text "me", text "x"]) :=
  helloCommand_keeps_iff fun hgreeted => absurd hgreeted.2.1 (by decide)

end Networking
