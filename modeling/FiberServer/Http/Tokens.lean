import FiberServer.Artifact.Authorization

/-!
# Tokens over a history

`ArtifactTokenServlet` creates or changes the token of a project; the table keeps a hash of it.

* `Granted`: the token of a project as a client knows it, from the requests and the answers so far.
* `tokens_of_history`: after any requests from a new database, a token is accepted for a project if
  it has the hash of the granted one, and whatever a request changes needs that token.
-/

namespace FiberServer

namespace Tokens

section

variable (FromString : Str → Option Json)

/-- A request that changes the token of a project, with the project and the token. -/
def change (request : HttpRequest) : Option (Str × Str) :=
  if request.m_path = "/api/artifacts/token".toList then
    match FromString request.getBody with
    | some (.object members) =>
      some ((ArtifactMetadata.FromJson members).owner, JsonUtil.GetString members "token".toList)
    | _ => none
  else none

/-- The answer to a change that was made. -/
def success : Option HttpResponse := some ⟨200, .response (reply 0 0 "success")⟩

/-- The tokens after one more request and its answer. -/
def grant (granted : Str → Option Str) (x : HttpRequest × Option HttpResponse) : Str → Option Str :=
  match change FromString x.1 with
  | some (p, t) => if x.2 = success then Function.update granted p (some t) else granted
  | none => granted

theorem grant_success (granted : Str → Option Str) {request : HttpRequest} {p t : Str}
    (h : change FromString request = some (p, t)) :
    grant FromString granted (request, success) = Function.update granted p (some t) := by
  rw [grant, h]
  exact if_pos rfl

theorem grant_of_ne (granted : Str → Option Str) (request : HttpRequest)
    {response : Option HttpResponse} (h : response ≠ success) :
    grant FromString granted (request, response) = granted := by
  rw [grant]
  split
  · exact if_neg h
  · rfl

/-- The token that was set last for each project. -/
def Granted (history : List (HttpRequest × Option HttpResponse)) : Str → Option Str :=
  history.foldl (grant FromString) fun _ => none

end

/-! ### The table -/

/-- What a row becomes. -/
def upsertRow (p h : Str) (row : ProjectToken) : ProjectToken :=
  if row.project_name = p then { row with token_hash := h, status := 1 } else row

theorem upsertRow_project_name (p h : Str) (row : ProjectToken) :
    (upsertRow p h row).project_name = row.project_name := by
  rw [upsertRow]
  split <;> rfl

/-- After a change only the new token of the project is accepted, and the other projects keep
theirs. -/
theorem enabled_upsertToken (db : Tables) (sha1 : Str → Str) (p h q u : Str) :
    (db.upsertToken p h).Enabled sha1 q u
      ↔ if q = p then sha1 u = h else db.Enabled sha1 q u := by
  rw [Tables.upsertToken]
  by_cases hany : (db.project_token.any fun t => t.project_name = p) = true
  · rw [if_pos hany]
    change (∃ row ∈ db.project_token.map (upsertRow p h), _) ↔ _
    by_cases hq : q = p
    · subst hq
      rw [if_pos rfl]
      constructor
      · rintro ⟨row', hrow', hname, hhash, -⟩
        obtain ⟨row, hrow, rfl⟩ := List.mem_map.mp hrow'
        rw [upsertRow_project_name] at hname
        rw [upsertRow, if_pos hname] at hhash
        exact hhash.symm
      · intro hu
        obtain ⟨row, hrow, hname⟩ := List.any_eq_true.mp hany
        rw [decide_eq_true_eq] at hname
        refine ⟨_, List.mem_map_of_mem hrow, ?_⟩
        rw [upsertRow, if_pos hname]
        exact ⟨hname, hu.symm, rfl⟩
    · rw [if_neg hq]
      have hother : ∀ row : ProjectToken, row.project_name = q → upsertRow p h row = row := by
        rintro row rfl
        rw [upsertRow, if_neg hq]
      constructor
      · rintro ⟨row', hrow', hname, hrest⟩
        obtain ⟨row, hrow, rfl⟩ := List.mem_map.mp hrow'
        rw [upsertRow_project_name] at hname
        rw [hother row hname] at hrest
        exact ⟨row, hrow, hname, hrest⟩
      · rintro ⟨row, hrow, hname, hrest⟩
        refine ⟨row, List.mem_map.mpr ⟨row, hrow, hother row hname⟩, hname, hrest⟩
  · rw [if_neg hany]
    have hnone : ∀ row ∈ db.project_token, row.project_name ≠ p := by
      intro row hrow hname
      exact hany (List.any_eq_true.mpr ⟨row, hrow, decide_eq_true hname⟩)
    change (∃ row ∈ db.project_token ++ [⟨p, h, 1⟩], _) ↔ _
    by_cases hq : q = p
    · subst hq
      rw [if_pos rfl]
      constructor
      · rintro ⟨row, hrow, hname, hhash, -⟩
        rcases List.mem_append.mp hrow with hrow | hrow
        · exact absurd hname (hnone row hrow)
        · rw [List.mem_singleton.mp hrow] at hhash
          exact hhash.symm
      · intro hu
        exact ⟨_, List.mem_append_right _ (List.mem_singleton_self _), rfl, hu.symm, rfl⟩
    · rw [if_neg hq]
      constructor
      · rintro ⟨row, hrow, hname, hrest⟩
        rcases List.mem_append.mp hrow with hrow | hrow
        · exact ⟨row, hrow, hname, hrest⟩
        · rw [List.mem_singleton.mp hrow] at hname
          exact absurd hname.symm hq
      · rintro ⟨row, hrow, hrest⟩
        exact ⟨row, List.mem_append_left _ hrow, hrest⟩

/-! ### The servlets -/

/-- An operation that changes no token. -/
def KeepsTokens (op : HttpOp) : Prop := ∀ p t, op ≠ .CreateOrUpdateToken p t

theorem handle_keepsTokens (FromString : Str → Option Json) (chunk_sizes : Int)
    (request : HttpRequest) {slt : ServletName} (h : slt.isWriting = false)
    (hne : slt ≠ .ArtifactTokenServlet) :
    (slt.handle FromString chunk_sizes request).Only KeepsTokens := by
  have hservlet : ∀ op, KeepsTokens (.servlet op) := fun op p t => by rintro ⟨⟩
  have hlookup : ∀ l, KeepsTokens (.lookup l) := fun l p t => by rintro ⟨⟩
  have hconnect : ∀ {f : Bool → HttpServlet (Option HttpResponse)},
      (∀ x, (f x).Only KeepsTokens) → (SociMgr.get >>= f).Only KeepsTokens :=
    fun hf => ⟨hservlet _, hf⟩
  cases slt with
  | StatusServlet => trivial
  | NotFoundServlet => trivial
  | UploadServlet => cases h
  | DirUploadServlet => cases h
  | ChunkUploadServlet => cases h
  | DeleteFileServlet => cases h
  | ArtifactTokenServlet => exact absurd rfl hne
  | MyFilesServlet =>
    simp only [ServletName.handle, MyFilesServlet.handle]
    split
    · refine Prog.only_ite (fun _ => trivial) fun _ => hconnect fun mysql => ?_
      exact Prog.only_ite (fun _ => trivial) fun _ => ⟨hlookup _, fun _ => trivial⟩
    · trivial
  | Md5Servlet =>
    simp only [ServletName.handle, Md5Servlet.handle]
    split
    · refine Prog.only_ite (fun _ => trivial) fun _ => hconnect fun mysql => ?_
      refine Prog.only_ite (fun _ => trivial) fun _ => ⟨hservlet _, fun _ => ?_⟩
      exact Prog.only_ite (fun _ => trivial) fun _ => trivial
    · trivial
  | DownloadServlet =>
    refine hconnect fun mysql => Prog.only_ite (fun _ => trivial) fun _ => ⟨hservlet _, ?_⟩
    rintro (_ | a)
    · trivial
    · exact Prog.only_ite (fun _ => trivial) fun _ => trivial
  | ArtifactQueryServlet =>
    simp only [ServletName.handle, ArtifactQueryServlet.handle]
    refine Prog.only_ite (fun _ => trivial) fun _ => Prog.only_ite (fun _ => trivial) fun _ => ?_
    refine hconnect fun mysql => Prog.only_ite (fun _ => trivial) fun _ => ?_
    refine Prog.only_ite (fun _ => ⟨hlookup _, fun _ => trivial⟩) fun _ => ?_
    refine Prog.only_ite (fun _ => ⟨hlookup _, fun _ => trivial⟩) fun _ => ?_
    exact Prog.only_ite (fun _ => ⟨hlookup _, fun _ => trivial⟩) fun _ => trivial

/-! ### One request -/

theorem path_of_ArtifactTokenServlet {fnmatch : Str → Str → Bool} {path : Str}
    (h : HttpServer.m_dispatch.getMatchedServlet fnmatch path = .ArtifactTokenServlet) :
    path = "/api/artifacts/token".toList := by
  have hdatas : ∀ p ∈ HttpServer.m_dispatch.m_datas,
      p.2 = .ArtifactTokenServlet → p.1 = "/api/artifacts/token".toList := by decide +kernel
  have hglobs : ∀ p ∈ HttpServer.m_dispatch.m_globs, p.2 ≠ .ArtifactTokenServlet := by
    decide +kernel
  obtain hmem | ⟨pattern, hmem⟩ | hdefault :=
    getMatchedServlet_cases fnmatch HttpServer.m_dispatch path
  · exact hdatas _ hmem h
  · exact absurd h (hglobs _ hmem)
  · rw [hdefault] at h
    cases h

theorem getMatchedServlet_token (fnmatch : Str → Str → Bool) :
    HttpServer.m_dispatch.getMatchedServlet fnmatch "/api/artifacts/token".toList
      = .ArtifactTokenServlet := by
  have hfind : (HttpServer.m_dispatch.m_datas.find? fun p => p.1 = "/api/artifacts/token".toList)
      = some ("/api/artifacts/token".toList, .ArtifactTokenServlet) := by decide +kernel
  rw [ServletDispatch.getMatchedServlet, hfind]

/-- The table of tokens, also after a rollback. -/
def TokensKept (s : Store) (w : World) : Prop :=
  w.Both fun db => db.project_token = s.db.project_token

theorem performOp_tokensKept {env : Env} {fates : Fates} {s : Store} {w : World} (op : Op)
    (hw : TokensKept s w) : TokensKept s (performOp env fates op w).2 :=
  performOp_both (fun _ _ _ _ hr hdb => (apply_project_token hr).trans hdb) hw

section

variable (FromString : Str → Option Json) (fnmatch : Str → Str → Bool) (env : Env)

theorem serve_project_token {request : HttpRequest}
    (h : request.m_path ≠ "/api/artifacts/token".toList) (fates : HttpOp → Nat → Fate) (s : Store) :
    (HttpServer.serve FromString fnmatch env fates request s).2.db.project_token
      = s.db.project_token := by
  have hinit : TokensKept s s.idle := ⟨rfl, rfl⟩
  have hkept : ∀ {w : World}, TokensKept s w →
      w.rollback.toStore.db.project_token = s.db.project_token := fun hw => hw.2
  simp only [HttpServer.serve, HttpServer.handle]
  refine hkept ?_
  generalize hslt : HttpServer.m_dispatch.getMatchedServlet fnmatch request.m_path = slt
  cases hkind : slt.isWriting with
  | true =>
    have hwriting : ∀ prog : Servlet (Option Response),
        TokensKept s ((writing prog).run (performHttp env fates) s.idle).2 := by
      intro prog
      rw [writing_run]
      exact (Prog.only_true prog).run_invariant (I := TokensKept s)
        (fun op _ _ hw => performOp_tokensKept op hw) hinit
    cases slt with
    | UploadServlet => exact hwriting _
    | DirUploadServlet => exact hwriting _
    | ChunkUploadServlet => exact hwriting _
    | DeleteFileServlet => exact hwriting _
    | _ => cases hkind
  | false =>
    have hne : slt ≠ .ArtifactTokenServlet := by
      rintro rfl
      exact h (path_of_ArtifactTokenServlet hslt)
    refine (handle_keepsTokens FromString env.chunk_sizes request hkind hne).run_invariant
      (I := TokensKept s) ?_ hinit
    rintro (op | l | ⟨p, t⟩) w hop hw
    · exact performOp_tokensKept op hw
    · exact createTable_both hw
    · exact absurd rfl (hop p t)

/-- The answer of `ArtifactTokenServlet` tells whether the token was changed. -/
theorem serve_token {request : HttpRequest} (h : request.m_path = "/api/artifacts/token".toList)
    (fates : HttpOp → Nat → Fate) (s : Store) :
    (∃ p t, change FromString request = some (p, t)
        ∧ HttpServer.serve FromString fnmatch env fates request s
          = (success, s.setDb (s.db.upsertToken p (env.sha1 t))))
      ∨ ∃ response, response ≠ success
        ∧ HttpServer.serve FromString fnmatch env fates request s = (response, s) := by
  have hserve : ∀ {response : Option HttpResponse} {s' : Store},
      (ArtifactTokenServlet.handle FromString request).run (performHttp env fates) s.idle
        = (response, s'.idle) →
      HttpServer.serve FromString fnmatch env fates request s = (response, s') := by
    intro response s' hrun
    rw [HttpServer.serve, HttpServer.handle, h, getMatchedServlet_token, ServletName.handle, hrun]
    rfl
  have hfailed : ∀ msg : String,
      (ArtifactTokenServlet.handle FromString request).run (performHttp env fates) s.idle
        = (some ⟨200, .response (reply (-1) 1 msg)⟩, s.idle) →
      ∃ response, response ≠ success
        ∧ HttpServer.serve FromString fnmatch env fates request s = (response, s) :=
    fun msg hrun => ⟨_, by simp [success, reply], hserve hrun⟩
  cases hbody : FromString request.getBody with
  | none =>
    refine Or.inr (hfailed "json parse error" ?_)
    simp only [ArtifactTokenServlet.handle, hbody, answer, Prog.run_pure]
  | some json =>
    cases json with
    | null =>
      refine Or.inr (hfailed "json parse error" ?_)
      simp only [ArtifactTokenServlet.handle, hbody, answer, Prog.run_pure]
    | other =>
      refine Or.inr (hfailed "json parse error" ?_)
      simp only [ArtifactTokenServlet.handle, hbody, answer, Prog.run_pure]
    | object members =>
      generalize hp : (ArtifactMetadata.FromJson members).owner = p
      generalize ht : JsonUtil.GetString members "token".toList = t
      have hchange : change FromString request = some (p, t) := by
        rw [change, if_pos h, hbody]
        simp only [hp, ht]
      by_cases hempty : p = [] ∨ t = []
      · refine Or.inr (hfailed "project_name and token are required" ?_)
        simp only [ArtifactTokenServlet.handle, hbody, hp, ht, hempty, if_true, answer,
          Prog.run_pure]
      by_cases hconnect : fates (.servlet (.ext (.connect .rows))) 0 = .ok
      swap
      · refine Or.inr (hfailed "create artifact token failed" ?_)
        have hrefused : (fates (.servlet (.ext (.connect .rows))) 0 == Fate.ok) = false :=
          beq_eq_false_iff_ne.mpr hconnect
        simp only [ArtifactTokenServlet.handle, hbody, hp, ht, hempty, if_false, SociMgr.get, ask,
          Prog.run_bind, Prog.run_perform, performHttp, performOp_connect, hrefused, answer,
          Bool.not_false, if_true, Prog.run_pure]
      by_cases hok : fates (.CreateOrUpdateToken p t) 0 = .ok
          ∧ fates (.CreateOrUpdateToken p t) 1 = .ok
      · refine Or.inl ⟨p, t, hchange, hserve ?_⟩
        simp only [ArtifactTokenServlet.handle, hbody, hp, ht, hempty, if_false, SociMgr.get, ask,
          Prog.run_bind, Prog.run_perform, performHttp, performOp_connect, hconnect,
          beq_self_eq_true, Bool.not_true, Bool.false_eq_true, hok, and_self, if_true, answer,
          Prog.run_pure, success, Store.idle_commit, Store.idle_db, Store.idle_setDb]
      · refine Or.inr (hfailed "create artifact token failed" ?_)
        simp only [ArtifactTokenServlet.handle, hbody, hp, ht, hempty, if_false, SociMgr.get, ask,
          Prog.run_bind, Prog.run_perform, performHttp, performOp_connect, hconnect,
          beq_self_eq_true, Bool.not_true, Bool.false_eq_true, hok, answer, Bool.not_false, if_true,
          Prog.run_pure, World.createTable_idle]

/-! ### Histories -/

/-- Requests one after the other: what was answered, and what is left. -/
def serveAll : Store → List (HttpRequest × (HttpOp → Nat → Fate)) →
    List (HttpRequest × Option HttpResponse) × Store
  | s, [] => ([], s)
  | s, x :: xs =>
    let (response, s) := HttpServer.serve FromString fnmatch env x.2 x.1 s
    let (history, s) := serveAll s xs
    ((x.1, response) :: history, s)

variable {FromString fnmatch env}

/-- The table has the hashes of the granted tokens. -/
def Agrees (env : Env) (granted : Str → Option Str) (s : Store) : Prop :=
  ∀ p u, s.db.Enabled env.sha1 p u ↔ ∃ t, granted p = some t ∧ env.sha1 u = env.sha1 t

theorem Agrees.serve {granted : Str → Option Str} {s : Store} (h : Agrees env granted s)
    (request : HttpRequest) (fates : HttpOp → Nat → Fate) :
    Agrees env
      (grant FromString granted
        (request, (HttpServer.serve FromString fnmatch env fates request s).1))
      (HttpServer.serve FromString fnmatch env fates request s).2 := by
  by_cases hpath : request.m_path = "/api/artifacts/token".toList
  · rcases serve_token FromString fnmatch env hpath fates s with
      ⟨p, t, hchange, hserve⟩ | ⟨response, hne, hserve⟩
    · rw [hserve, grant_success FromString granted hchange]
      intro q u
      change (s.db.upsertToken p (env.sha1 t)).Enabled env.sha1 q u ↔ _
      rw [enabled_upsertToken]
      by_cases hq : q = p
      · rw [if_pos hq, hq, Function.update_self]
        simp
      · rw [if_neg hq, Function.update_of_ne hq]
        exact h q u
    · rw [hserve, grant_of_ne FromString granted request hne]
      exact h
  · have hchange : change FromString request = none := by rw [change, if_neg hpath]
    rw [grant, hchange]
    intro q u
    have htable := serve_project_token FromString fnmatch env hpath fates s
    rw [Tables.Enabled, htable]
    exact h q u

theorem Agrees.serveAll {xs : List (HttpRequest × (HttpOp → Nat → Fate))} :
    ∀ {granted : Str → Option Str} {s : Store}, Agrees env granted s →
      Agrees env ((serveAll FromString fnmatch env s xs).1.foldl (grant FromString) granted)
        (serveAll FromString fnmatch env s xs).2 := by
  induction xs with
  | nil =>
    intro granted s h
    exact h
  | cons x xs ih =>
    intro granted s h
    exact ih (h.serve x.1 x.2)

/-! ### What a token is good for -/

/-- With a connection and a statement that succeeds, exactly an enabled token is admitted. -/
theorem admitted_iff {access : Access} {p : Str} {fates : Fates} (s : Store)
    (hpath : IsArtifactWritePath access.path = true)
    (hconnect : fates (.ext (.connect .token)) 0 = .ok)
    (hselect : ∀ n, fates (.ValidateToken p access.token) n = .ok) :
    asks env fates s (RequireArtifactToken access p) = none
      ↔ p ≠ [] ∧ access.token ≠ [] ∧ s.db.Enabled env.sha1 p access.token := by
  have hvalid :
      s.db.validToken (fates (.ValidateToken p access.token)) env.sha1 p access.token = true
      ↔ p ≠ [] ∧ access.token ≠ [] ∧ s.db.Enabled env.sha1 p access.token := by
    simp [Tables.validToken, hselect, Tables.Enabled, and_assoc]
  rw [← hvalid, asks, RequireArtifactToken]
  by_cases htoken : access.token = []
  · simp [hpath, htoken, Tables.validToken]
  · simp only [hpath, htoken, call, Prog.run_bind, Prog.run_perform, performOp_connect, hconnect,
      performOp_ValidateToken, Bool.not_true, Bool.false_eq_true, if_false, beq_self_eq_true]
    cases s.db.validToken (fates (.ValidateToken p access.token)) env.sha1 p access.token <;> simp

variable (FromString fnmatch) in
/-- Whose rows are others afterwards had the token of the request enabled. -/
theorem enabled_of_changed {request : HttpRequest} {fates : HttpOp → Nat → Fate} {s : Store}
    {q : Str} (hq : (HttpServer.serve FromString fnmatch env fates request s).2.db.ofProject q
      ≠ s.db.ofProject q) : s.db.Enabled env.sha1 q request.GetArtifactToken := by
  simp only [HttpServer.serve, HttpServer.handle] at hq
  generalize hslt : HttpServer.m_dispatch.getMatchedServlet fnmatch request.m_path = slt at hq
  cases hwriting : slt.isWriting with
  | true =>
    have hpath := isArtifactWritePath_of_isWriting (hslt ▸ hwriting)
    obtain ⟨p, prog, hprog, hwrites⟩ :=
      handle_writing FromString env.chunk_sizes request hwriting hpath
    rw [hwrites, writing_run] at hq
    obtain ⟨rfl, henabled⟩ := tokenFirst_run hprog hq
    exact henabled
  | false =>
    exact absurd (unwritten_run (handle_unwritten FromString env.chunk_sizes request hwriting) q) hq

/-- **Tokens over a history.** After any requests from a database without tokens, a token is
admitted for a project exactly if it has the hash of the one that was set last, and rows of a
project are changed by requests with such a token only. -/
theorem tokens_of_history (xs : List (HttpRequest × (HttpOp → Nat → Fate))) {s : Store}
    (hempty : s.db.project_token = []) :
    let history := (serveAll FromString fnmatch env s xs).1
    let s' := (serveAll FromString fnmatch env s xs).2
    (∀ (access : Access) (p : Str) (fates : Fates), IsArtifactWritePath access.path = true →
      fates (.ext (.connect .token)) 0 = .ok →
      (∀ n, fates (.ValidateToken p access.token) n = .ok) →
      (asks env fates s' (RequireArtifactToken access p) = none
        ↔ p ≠ [] ∧ access.token ≠ [] ∧ ∃ t, Granted FromString history p = some t
          ∧ env.sha1 access.token = env.sha1 t))
      ∧ ∀ (request : HttpRequest) (fates : HttpOp → Nat → Fate) (q : Str),
        (HttpServer.serve FromString fnmatch env fates request s').2.db.ofProject q
          ≠ s'.db.ofProject q →
        ∃ t, Granted FromString history q = some t
          ∧ env.sha1 request.GetArtifactToken = env.sha1 t := by
  intro history s'
  have hinit : Agrees env (fun _ => none) s := by
    intro p u
    simp [Tables.Enabled, hempty]
  have hagrees : Agrees env (Granted FromString history) s' := hinit.serveAll
  constructor
  · intro access p fates hpath hconnect hselect
    rw [admitted_iff s' hpath hconnect hselect, hagrees p access.token]
  · intro request fates q hq
    exact (hagrees q _).mp (enabled_of_changed FromString fnmatch hq)

def tokenMembers (name : Str) : Option Value :=
  if name = "project_name".toList then some (.string "web".toList)
  else if name = "token".toList then some (.string "t1".toList)
  else none

/-- A reader that knows one text. -/
def readToken (body : Str) : Option Json :=
  if body = "web".toList then some (.object tokenMembers) else none

def tokenRequest : HttpRequest where
  m_path := "/api/artifacts/token".toList
  m_query := []
  m_headers := []
  m_body := [119, 101, 98]

def tokenEnv : Env where
  tmp_path := "/tmp/uploadfiles".toList
  cwd := []
  chunk_sizes := 5242880
  sha1 := id
  newFileId := fun n => Nat.toDigits 10 n
  back := id

def withoutTokens : Store where
  db := { artifact_info := [], file_info := [], file_shared := [], project_token := [] }
  files := []
  uploads := 0
  fs := ∅

/-- The token that one request sets is admitted by the next. -/
theorem tokens_of_history_one :
    asks tokenEnv (fun _ _ => .ok)
      (serveAll readToken (fun _ _ => false) tokenEnv withoutTokens
        [(tokenRequest, fun _ _ => .ok)]).2
      (RequireArtifactToken ⟨"/api/artifacts/delete".toList, "t1".toList⟩ "web".toList) = none :=
  ((tokens_of_history [(tokenRequest, fun _ _ => .ok)] rfl).1
    ⟨"/api/artifacts/delete".toList, "t1".toList⟩ "web".toList (fun _ _ => .ok) (by decide) rfl
    fun _ => rfl).mpr ⟨by decide, by decide, "t1".toList, by decide +kernel, rfl⟩

end

end Tokens

end FiberServer
