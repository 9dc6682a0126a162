import QwenStack.Grpc.Router

/-!
# Responses over chat — the MCP tools of requests side by side

The tools of a request are to be those of its own servers, and of the static ones (`OwnTool`).  The keys of a
request stay in the router until another request writes its own, and a streaming request takes the tools of
all servers that any request has connected.

So a run isolates its requests exactly when no step lists the tools of others (`Undisturbed`):
`isolated_iff`.
-/

namespace QwenStack.Grpc

open List

/-! ### What a request shows -/

namespace Phase

/-- The loop of a request. -/
def context : Phase → Option LoopContext
  | .looping ctx _ => some ctx
  | .streaming ctx _ => some ctx
  | .answered ctx _ _ => some ctx
  | .streamed ctx _ _ => some ctx
  | _ => none

/-- What the model was asked. -/
def asked : Phase → List ChatCompletionRequest
  | .looping _ l => l.asked
  | .streaming _ s => s.loop.asked
  | .answered _ l _ => l.asked
  | .streamed _ s _ => s.loop.asked
  | _ => []

/-- The lists of tools that were shown. -/
def listed : Phase → List (List McpTool)
  | .answered _ _ result => ToolLoop.listed result
  | .streaming _ s => s.client.sent.filterMap Sent.listed
  | .streamed _ s _ => s.client.sent.filterMap Sent.listed
  | _ => []

end Phase

section Isolation
variable {ι μ : Type} [DecidableEq ι] (mgr : McpManager μ) (servers : McpServers μ)
  (callers : ι → Caller)

/-- These are the tools of a request. -/
def Owns (c : Caller) (tools : List McpTool) : Prop :=
  ∀ tool, tool ∈ tools ↔ OwnTool mgr servers c.request tool

/-- **Isolation**: a request offers, executes and lists its own tools. -/
structure Isolated (c : Caller) (phase : Phase) : Prop where
  offers : ∀ chat ∈ phase.asked, ∃ mcpTools, chat.tools.getD [] =
    extractToolsFromResponseTools c.request.tools false ++ convertMcpToolsToChatTools mcpTools ∧
      Owns mgr servers c mcpTools
  executes : ∀ ctx, phase.context = some ctx → Owns mgr servers c ctx.mcpTools
  lists : ∀ tools ∈ phase.listed, Owns mgr servers c tools

/-- The keys that are written name the tools of a request. -/
def NamesOwn (s : Router ι μ) (i : ι) : Prop :=
  ∀ tool, servers.Offers (· ∈ s.requestedServers) tool ↔ OwnTool mgr servers (callers i).request tool

/-- The next step of a request lists no tools of others: where it lists those of the keys that are written,
they name its own, and where it lists all, no other server is connected. -/
def Undisturbed (s : Router ι μ) (i : ι) : Prop :=
  match s.phase i with
  | .written _ =>
      hasMcpTools (callers i).request.tools = true →
        if (callers i).isStreaming = true then
          ∀ key, servers.connected s.manager key → ∀ tool ∈ servers.tools key,
            OwnTool mgr servers (callers i).request tool
        else NamesOwn mgr servers callers s i
  | .looping ctx l => l.ListsAgain ctx (callers i).world → NamesOwn mgr servers callers s i
  | _ => True

/-- No step of a run lists the tools of others. -/
def Router.Calm (s : Router ι μ) : List ι → Prop
  | [] => True
  | i :: rest => Undisturbed mgr servers callers s i ∧ Calm (s.step mgr callers i) rest

/-! ### What is true of each request -/

/-- What a request has at each point. -/
def Phase.Sound (manager : μ) (c : Caller) : Phase → Prop
  | .waiting => True
  | .connecting modifiedRequest rest serverKeys =>
      modifiedRequest.tools = c.request.tools ∧ hasMcpTools c.request.tools = true ∧
      ∃ past, past ++ rest = c.request.tools.getD [] ∧ serverKeys = ownKeys mgr servers past ∧
        ∀ key ∈ serverKeys, servers.connected manager key
  | .connected modifiedRequest serverKeys =>
      modifiedRequest.tools = c.request.tools ∧
      (hasMcpTools c.request.tools = true →
        serverKeys = ownKeys mgr servers (c.request.tools.getD [])) ∧
      ∀ key ∈ serverKeys, servers.connected manager key
  | .written modifiedRequest =>
      modifiedRequest.tools = c.request.tools ∧
      (hasMcpTools c.request.tools = true →
        ∀ key ∈ ownKeys mgr servers (c.request.tools.getD []), servers.connected manager key)
  | .looping ctx l => Owns mgr servers c ctx.mcpTools ∧ l.Asks ctx c.request.tools
  | .streaming ctx s => Owns mgr servers c ctx.mcpTools ∧ s.Shows ctx c.request.tools
  | .answered ctx l result =>
      (Owns mgr servers c ctx.mcpTools ∧ l.Asks ctx c.request.tools) ∧
        ∀ tools ∈ ToolLoop.listed result, Owns mgr servers c tools
  | .streamed ctx s _ => Owns mgr servers c ctx.mcpTools ∧ s.Shows ctx c.request.tools
  | .plain _ | .refused _ => True

variable {mgr servers callers} {c : Caller} {phase : Phase}

/-- More servers are connected meanwhile. -/
theorem Phase.Sound.mono {manager manager' : μ} (h : phase.Sound mgr servers manager c)
    (hmono : ∀ key, servers.connected manager key → servers.connected manager' key) :
    phase.Sound mgr servers manager' c := by
  cases phase with
  | connecting modifiedRequest rest serverKeys =>
    obtain ⟨htools, hmcp, past, hpast, hkeys, hconnected⟩ := h
    exact ⟨htools, hmcp, past, hpast, hkeys, fun key hkey => hmono key (hconnected key hkey)⟩
  | connected modifiedRequest serverKeys =>
    obtain ⟨htools, hkeys, hconnected⟩ := h
    exact ⟨htools, hkeys, fun key hkey => hmono key (hconnected key hkey)⟩
  | written modifiedRequest =>
    obtain ⟨htools, hconnected⟩ := h
    exact ⟨htools, fun hmcp key hkey => hmono key (hconnected hmcp key hkey)⟩
  | _ => exact h

/-- **A request as it should be is isolated.** -/
theorem Phase.Sound.isolated {manager : μ} (h : phase.Sound mgr servers manager c) :
    Isolated mgr servers c phase := by
  have hoffers : ∀ {ctx : LoopContext} {l : ToolLoop}, Owns mgr servers c ctx.mcpTools →
      l.Asks ctx c.request.tools → ∀ chat ∈ l.asked, ∃ mcpTools, chat.tools.getD [] =
        extractToolsFromResponseTools c.request.tools false ++ convertMcpToolsToChatTools mcpTools ∧
          Owns mgr servers c mcpTools :=
    fun {ctx _} howns hasks chat hchat => ⟨ctx.mcpTools, hasks.asked chat hchat, howns⟩
  have hlists : ∀ {ctx : LoopContext} {s : StreamLoop}, Owns mgr servers c ctx.mcpTools →
      s.Shows ctx c.request.tools → ∀ tools ∈ s.client.sent.filterMap Sent.listed,
        Owns mgr servers c tools := by
    intro ctx s howns hshows tools htools
    obtain ⟨block, hblock, hlisted⟩ := List.mem_filterMap.mp htools
    rw [hshows.lists block hblock tools hlisted]
    exact howns
  cases phase with
  | looping ctx l =>
    refine ⟨hoffers h.1 h.2, ?_, fun _ htools => absurd htools not_mem_nil⟩
    rintro _ ⟨⟩
    exact h.1
  | streaming ctx s =>
    refine ⟨hoffers h.1 h.2.asks, ?_, hlists h.1 h.2⟩
    rintro _ ⟨⟩
    exact h.1
  | answered ctx l result =>
    refine ⟨hoffers h.1.1 h.1.2, ?_, h.2⟩
    rintro _ ⟨⟩
    exact h.1.1
  | streamed ctx s loopEnd =>
    refine ⟨hoffers h.1 h.2.asks, ?_, hlists h.1 h.2⟩
    rintro _ ⟨⟩
    exact h.1
  | _ =>
    exact ⟨fun _ hchat => absurd hchat not_mem_nil, (fun _ hctx => nomatch hctx),
      fun _ htools => absurd htools not_mem_nil⟩

/-! ### A step -/

/-- The servers of the keys that are written are connected, and each request is as it should be. -/
structure Router.Sound (mgr : McpManager μ) (servers : McpServers μ) (callers : ι → Caller)
    (s : Router ι μ) : Prop where
  written : ∀ key ∈ s.requestedServers, servers.connected s.manager key
  phases : ∀ i, (s.phase i).Sound mgr servers s.manager (callers i)

namespace Router
variable {s s' : Router ι μ} {i : ι}

/-- A request goes on, and more servers may be connected. -/
theorem Sound.goOn (h : s.Sound mgr servers callers) {phase : Phase} (hphases : s'.phase = s.phase)
    (hmono : ∀ key, servers.connected s.manager key → servers.connected s'.manager key)
    (hwritten : ∀ key ∈ s'.requestedServers, servers.connected s'.manager key)
    (hphase : phase.Sound mgr servers s'.manager (callers i)) :
    (s'.goOn i phase).Sound mgr servers callers := by
  refine ⟨hwritten, fun j => ?_⟩
  change (Function.update s'.phase i phase j).Sound mgr servers s'.manager (callers j)
  by_cases heq : j = i
  · subst heq
    rw [Function.update_self]
    exact hphase
  · rw [Function.update_of_ne heq, hphases]
    exact (h.phases j).mono hmono

/-- The router stays as it is. -/
theorem Sound.stay (h : s.Sound mgr servers callers) {phase : Phase}
    (hphase : phase.Sound mgr servers s.manager (callers i)) : (s.goOn i phase).Sound mgr servers callers :=
  h.goOn rfl (fun _ hkey => hkey) h.written hphase

theorem Sound.load (h : s.Sound mgr servers callers) : (s.load callers i).Sound mgr servers callers := by
  unfold Router.load
  split
  · exact h.stay trivial
  · next modifiedRequest hload =>
    have htools := loadConversationHistory_tools hload
    split
    · next hmcp =>
      exact h.stay ⟨htools, hmcp, [], rfl, rfl, fun _ hkey => absurd hkey not_mem_nil⟩
    · next hmcp =>
      exact h.stay ⟨htools, fun h => absurd h hmcp, fun _ hkey => absurd hkey not_mem_nil⟩

/-- **Clients**: the keys that are kept are those of the servers of the request. -/
theorem Sound.connect (hserves : mgr.Serves servers) (h : s.Sound mgr servers callers)
    {modifiedRequest : ResponsesRequest} {rest : List ResponseTool} {serverKeys : List Str}
    (hphase : (Phase.connecting modifiedRequest rest serverKeys).Sound mgr servers s.manager (callers i)) :
    (s.connect mgr i modifiedRequest serverKeys rest).Sound mgr servers callers := by
  obtain ⟨htools, hmcp, past, hpast, rfl, hconnected⟩ := hphase
  unfold Router.connect
  cases rest with
  | nil =>
    rw [append_nil] at hpast
    dsimp only
    split
    · exact h.stay trivial
    · exact h.stay ⟨htools, fun _ => hpast ▸ rfl, hconnected⟩
  | cons tool rest =>
    obtain ⟨hkeys, hclients⟩ := ensureClient_spec hserves s.manager past tool
    dsimp only
    refine h.goOn rfl (fun key hkey => (hclients key).mpr (.inl hkey))
      (fun key hkey => (hclients key).mpr (.inl (h.written key hkey)))
      ⟨htools, hmcp, past ++ [tool], by rw [append_assoc]; exact hpast, hkeys, ?_⟩
    intro key hkey
    rw [hkeys, ownKeys_concat] at hkey
    refine (hclients key).mpr ?_
    cases hown : tool.ownKey mgr servers with
    | none =>
      rw [hown] at hkey
      exact .inl (hconnected key hkey)
    | some key' =>
      rw [hown] at hkey
      exact ((mem_trackServer).mp hkey).imp (hconnected key) fun heq => congrArg some heq.symm

theorem Sound.write (h : s.Sound mgr servers callers) {modifiedRequest : ResponsesRequest}
    {serverKeys : List Str}
    (hphase : (Phase.connected modifiedRequest serverKeys).Sound mgr servers s.manager (callers i)) :
    (s.write i modifiedRequest serverKeys).Sound mgr servers callers := by
  obtain ⟨htools, hkeys, hconnected⟩ := hphase
  exact h.goOn rfl (fun _ hkey => hkey) hconnected ⟨htools, fun hmcp => hkeys hmcp ▸ hconnected⟩

omit [DecidableEq ι] in
/-- What is listed for the keys that are written. -/
theorem Sound.mem_listRequested (hserves : mgr.Serves servers) (h : s.Sound mgr servers callers)
    (tool : McpTool) :
    tool ∈ s.listRequested mgr ↔ servers.Offers (· ∈ s.requestedServers) tool := by
  unfold Router.listRequested
  rw [hserves.listToolsForServers]
  exact McpServers.offers_congr (fun key => and_iff_left_of_imp (h.written key)) tool

/-- **The list of a streaming request**: all that is connected is to be its own. -/
theorem owns_listTools_iff (hserves : mgr.Serves servers) {c : Caller} {manager : μ}
    (hconnected : ∀ key ∈ ownKeys mgr servers (c.request.tools.getD []), servers.connected manager key) :
    Owns mgr servers c (mgr.listTools manager) ↔
      ∀ key, servers.connected manager key → ∀ tool ∈ servers.tools key,
        OwnTool mgr servers c.request tool := by
  simp only [Owns, hserves.listTools]
  constructor
  · intro howns key hkey tool htool
    exact (howns tool).mp ⟨key, .inr hkey, htool⟩
  · intro hall tool
    refine ⟨fun ⟨key, hkey, htool⟩ => ?_, fun hown => hown.mono hconnected⟩
    rcases hkey with hstatic | hkey
    · exact ⟨key, .inl hstatic, htool⟩
    · exact hall key hkey tool htool

/-- **The start of a loop.** -/
theorem Sound.startLoop (hserves : mgr.Serves servers) (h : s.Sound mgr servers callers)
    {modifiedRequest : ResponsesRequest} (hphase : s.phase i = .written modifiedRequest)
    (hundisturbed : Undisturbed mgr servers callers s i) :
    (s.startLoop mgr callers i modifiedRequest).Sound mgr servers callers := by
  have hsound := h.phases i
  rw [hphase] at hsound
  obtain ⟨htools, hconnected⟩ := hsound
  unfold Undisturbed at hundisturbed
  rw [hphase] at hundisturbed
  unfold Router.startLoop
  split
  · next hmcp =>
    have hlists := hundisturbed hmcp
    split
    · next hstreaming =>
      rw [if_pos hstreaming] at hlists
      refine h.stay ⟨(owns_listTools_iff hserves (hconnected hmcp)).mpr hlists, ?_⟩
      rw [← htools]
      exact StreamLoop.shows_start _ _ modifiedRequest
    · next hstreaming =>
      rw [if_neg hstreaming] at hlists
      refine h.stay ⟨fun tool => (h.mem_listRequested hserves tool).trans (hlists tool), ?_⟩
      rw [← htools]
      exact ToolLoop.asks_start _ modifiedRequest
  · exact h.stay trivial

/-- **A turn of a loop.** -/
theorem Sound.turnLoop (hserves : mgr.Serves servers) (h : s.Sound mgr servers callers)
    {ctx : LoopContext} {l : ToolLoop} (hphase : s.phase i = .looping ctx l)
    (hundisturbed : Undisturbed mgr servers callers s i) :
    (s.turnLoop mgr callers i ctx l).Sound mgr servers callers := by
  have hsound := h.phases i
  rw [hphase] at hsound
  obtain ⟨howns, hasks⟩ := hsound
  unfold Undisturbed at hundisturbed
  rw [hphase] at hundisturbed
  have hasks' : l.Asks { ctx with lastTools := s.listRequested mgr } (callers i).request.tools :=
    ⟨hasks.tools_eq, hasks.asked, hasks.items⟩
  have hturn := hasks'.turn (callers i).world
  unfold Router.turnLoop
  dsimp only
  split
  · next heq =>
    rw [heq] at hturn
    exact h.stay ⟨howns, hturn⟩
  · next l' result heq =>
    obtain ⟨hlisted, hnone⟩ := hasks'.turn_listed heq
    rw [heq] at hturn
    refine h.stay ⟨⟨howns, hturn⟩, fun tools htools => ?_⟩
    by_cases hagain : l.ListsAgain ctx (callers i).world
    · rw [hlisted hagain] at htools
      obtain rfl := List.mem_singleton.mp htools
      exact fun tool => (h.mem_listRequested hserves tool).trans (hundisturbed hagain tool)
    · rw [hnone hagain] at htools
      cases htools

theorem Sound.turnStream (h : s.Sound mgr servers callers) {ctx : LoopContext} {sl : StreamLoop}
    (hphase : (Phase.streaming ctx sl).Sound mgr servers s.manager (callers i)) :
    (s.turnStream callers i ctx sl).Sound mgr servers callers := by
  have hturn := hphase.2.turn (callers i).streamWorld
  unfold Router.turnStream
  split
  · next heq =>
    rw [heq] at hturn
    exact h.stay ⟨hphase.1, hturn⟩
  · next heq =>
    rw [heq] at hturn
    exact h.stay ⟨hphase.1, hturn⟩

/-- **A step.** -/
theorem Sound.step (hserves : mgr.Serves servers) (h : s.Sound mgr servers callers)
    (hundisturbed : Undisturbed mgr servers callers s i) :
    (s.step mgr callers i).Sound mgr servers callers := by
  have hsound := h.phases i
  unfold Router.step
  split
  · exact h.load
  · next hphase => exact h.connect hserves (hphase ▸ hsound)
  · next hphase => exact h.write (hphase ▸ hsound)
  · next hphase => exact h.startLoop hserves hphase hundisturbed
  · next hphase => exact h.turnLoop hserves hphase hundisturbed
  · next hphase => exact h.turnStream (hphase ▸ hsound)
  all_goals exact h

theorem phase_goOn (s : Router ι μ) (i : ι) (phase : Phase) : (s.goOn i phase).phase i = phase :=
  Function.update_self ..

/-- **What is not isolated shows**: the step that lists the tools of others. -/
theorem Sound.undisturbed (hserves : mgr.Serves servers) (h : s.Sound mgr servers callers)
    (hisolated : Isolated mgr servers (callers i) ((s.step mgr callers i).phase i)) :
    Undisturbed mgr servers callers s i := by
  have hsound := h.phases i
  unfold Undisturbed
  split
  · next modifiedRequest hphase =>
    intro hmcp
    rw [hphase] at hsound
    have hstep : s.step mgr callers i = s.startLoop mgr callers i modifiedRequest := by
      rw [Router.step, hphase]
    rw [hstep, Router.startLoop, if_pos hmcp] at hisolated
    split
    · next hstreaming =>
      rw [if_pos hstreaming, phase_goOn] at hisolated
      exact (owns_listTools_iff hserves (hsound.2 hmcp)).mp (hisolated.executes _ rfl)
    · next hstreaming =>
      rw [if_neg hstreaming, phase_goOn] at hisolated
      exact fun tool => (h.mem_listRequested hserves tool).symm.trans (hisolated.executes _ rfl tool)
  · next ctx l hphase =>
    intro hagain
    rw [hphase] at hsound
    have hasks : l.Asks { ctx with lastTools := s.listRequested mgr } (callers i).request.tools :=
      ⟨hsound.2.tools_eq, hsound.2.asked, hsound.2.items⟩
    have hagain' : l.ListsAgain { ctx with lastTools := s.listRequested mgr } (callers i).world := hagain
    obtain ⟨l', result, hturn⟩ := hagain'.ends
    have hstep : s.step mgr callers i = s.turnLoop mgr callers i ctx l := by
      rw [Router.step, hphase]
    rw [hstep, Router.turnLoop, hturn, phase_goOn] at hisolated
    have howns := hisolated.lists (s.listRequested mgr) (by
      change _ ∈ ToolLoop.listed result
      rw [(hasks.turn_listed hturn).1 hagain]
      exact mem_singleton_self _)
    exact fun tool => (h.mem_listRequested hserves tool).symm.trans (howns tool)
  · trivial

/-! ### A run -/

theorem Calm.prefix {past rest : List ι} (h : Calm mgr servers callers s (past ++ rest)) :
    Calm mgr servers callers s past := by
  induction past generalizing s with
  | nil => trivial
  | cons i past ih => exact ⟨h.1, ih h.2⟩

theorem Sound.run (hserves : mgr.Serves servers) (h : s.Sound mgr servers callers) {schedule : List ι}
    (hcalm : Calm mgr servers callers s schedule) :
    (s.run mgr callers schedule).Sound mgr servers callers := by
  induction schedule generalizing s with
  | nil => exact h
  | cons i schedule ih => exact ih (h.step hserves hcalm.1) hcalm.2

theorem Sound.calm (hserves : mgr.Serves servers) (h : s.Sound mgr servers callers) {schedule : List ι}
    (hisolated : ∀ past, past <+: schedule → ∀ i,
      Isolated mgr servers (callers i) ((s.run mgr callers past).phase i)) :
    Calm mgr servers callers s schedule := by
  induction schedule generalizing s with
  | nil => trivial
  | cons i schedule ih =>
    have hfirst := h.undisturbed hserves (hisolated [i] ⟨schedule, rfl⟩ i)
    refine ⟨hfirst, ih (h.step hserves hfirst) fun past hpast j => ?_⟩
    exact hisolated (i :: past) (List.cons_prefix_cons.mpr ⟨rfl, hpast⟩) j

omit [DecidableEq ι] in
/-- No request has been served yet. -/
theorem sound_start (mgr : McpManager μ) (servers : McpServers μ) (callers : ι → Caller) (manager : μ) :
    Sound mgr servers callers { manager := manager } :=
  ⟨fun _ hkey => absurd hkey not_mem_nil, fun _ => trivial⟩

end Router

/-- **When requests are isolated**: in every state of a run each request offers, executes and lists its own
tools exactly when none of its steps lists the tools of others. -/
theorem isolated_iff (hserves : mgr.Serves servers) (manager : μ) (schedule : List ι) :
    (∀ past, past <+: schedule → ∀ i, Isolated mgr servers (callers i)
        ((Router.run mgr callers { manager := manager } past).phase i)) ↔
      Router.Calm mgr servers callers { manager := manager } schedule := by
  have hstart := Router.sound_start mgr servers callers manager
  refine ⟨hstart.calm hserves, fun hcalm past hpast i => ?_⟩
  obtain ⟨rest, rfl⟩ := hpast
  exact ((hstart.run hserves hcalm.prefix).phases i).isolated

/-! ### Keys that stay -/

/-- Tools are to be listed, or may be. -/
def Phase.lists : Phase → Bool
  | .written _ => true
  | .looping .. => true
  | _ => false

variable (mgr servers callers)

/-- No request of a run that may list tools is a streaming one, and its keys are those that are written. -/
def Router.KeepsKeys (s : Router ι μ) : List ι → Prop
  | [] => True
  | i :: rest =>
      ((s.phase i).lists = true → (callers i).isStreaming = false ∧
        s.requestedServers = ownKeys mgr servers ((callers i).request.tools.getD [])) ∧
      KeepsKeys (s.step mgr callers i) rest

instance decidableKeepsKeys (s : Router ι μ) :
    (schedule : List ι) → Decidable (s.KeepsKeys mgr servers callers schedule)
  | [] => inferInstanceAs (Decidable True)
  | i :: rest =>
      have := decidableKeepsKeys (s.step mgr callers i) rest
      inferInstanceAs (Decidable ((_ → _ ∧ _) ∧ _))

variable {mgr servers callers}

/-- **Keys that stay** are enough. -/
theorem Router.KeepsKeys.calm {s : Router ι μ} {schedule : List ι}
    (h : s.KeepsKeys mgr servers callers schedule) : s.Calm mgr servers callers schedule := by
  induction schedule generalizing s with
  | nil => trivial
  | cons i schedule ih =>
    obtain ⟨hkeys, hrest⟩ := h
    refine ⟨?_, ih hrest⟩
    have hnames : (s.phase i).lists = true → NamesOwn mgr servers callers s i := by
      intro hlists tool
      rw [(hkeys hlists).2]
      exact Iff.rfl
    unfold Undisturbed
    split
    · next heq =>
      have hlists : (s.phase i).lists = true := by rw [heq]; rfl
      intro _
      rw [if_neg (by rw [(hkeys hlists).1]; exact Bool.false_ne_true)]
      exact hnames hlists
    · next heq => exact fun _ => hnames (by rw [heq]; rfl)
    · trivial

end Isolation

/-- A manager that keeps the addresses of its clients; each server has a tool of the name of its address. -/
def addressManager : McpManager (List Str) where
  serverKey config :=
    match config.transport with
    | .sse url _ => url
    | .streamable url _ => url
  getOrCreateClient config clients :=
    (true, clients ++ [match config.transport with
      | .sse url _ => url
      | .streamable url _ => url])
  listTools clients := clients.map fun key => ⟨key, none, []⟩
  listToolsForServers keys clients := (clients.filter (· ∈ keys)).map fun key => ⟨key, none, []⟩

def addressServers : McpServers (List Str) where
  isStatic _ := False
  tools key := [⟨key, none, []⟩]
  reachable _ := true
  connected clients key := key ∈ clients

theorem addressManager_serves : addressManager.Serves addressServers where
  listTools clients tool := by
    simp [addressManager, addressServers, McpServers.Offers, eq_comm]
  listToolsForServers keys clients tool := by
    simp [addressManager, addressServers, McpServers.Offers, and_comm, eq_comm]
  client _ _ := rfl
  connected config clients key := by
    simp [addressManager, addressServers]

/-- What the model says: it calls a tool once. -/
def callOnce (name : Str) (asked : List ChatCompletionRequest) : ChatCompletionResponse where
  id := "chatcmpl-1".toList
  model := "qwen".toList
  choices :=
    if asked.length = 1 then
      [⟨⟨none, some [⟨"call_1".toList, "function".toList, ⟨name, some "{}".toList⟩⟩], none⟩,
        some "tool_calls".toList⟩]
    else [⟨⟨some "Hello".toList, none, none⟩, some "stop".toList⟩]
  usage := none

/-- A request with the tools of one server. -/
def addressCaller (url : Str) : Caller where
  request := { input := .text "Hi".toList, tools := some [{ type := .mcp, serverUrl := some url }] }
  uuid := Nat.toDigits 10
  unknownModelId := "unknown".toList
  codec := ⟨fun _ => none, fun _ => none, id⟩
  storage := ⟨fun _ => .ok [], fun _ => .ok false, fun _ => .ok []⟩
  responseId := some "resp_1".toList
  emitter := .new (Nat.toDigits 10) "resp_1".toList "qwen".toList 0 0
  world := { chat := fun asked => .ok (callOnce url asked), callTool := fun _ => .ok [] }
  streamWorld := { chat := fun _ => [.done], callTool := fun _ => .ok [] }

/-- Two requests with a server each. -/
def twoCallers (second : Bool) : Caller :=
  addressCaller (if second = true then "http://b".toList else "http://a".toList)

/-- Two requests one after the other are isolated. -/
theorem one_after_the_other :
    Router.Calm addressManager addressServers twoCallers { manager := [] }
        (List.replicate 7 false ++ List.replicate 7 true) ∧
      ∀ past, past <+: List.replicate 7 false ++ List.replicate 7 true → ∀ i,
        Isolated addressManager addressServers (twoCallers i)
          ((Router.run addressManager twoCallers { manager := [] } past).phase i) := by
  have hcalm : Router.Calm addressManager addressServers twoCallers { manager := [] }
      (List.replicate 7 false ++ List.replicate 7 true) := Router.KeepsKeys.calm (by decide +kernel)
  exact ⟨hcalm, (isolated_iff addressManager_serves [] _).mpr hcalm⟩

/-- Both write their keys before the first lists its tools. -/
def overlap : List Bool := List.replicate 4 false ++ List.replicate 4 true ++ [false]

/-- The first request is given the tool of the second. -/
theorem overlap_not_isolated : ¬ Isolated addressManager addressServers (twoCallers false)
    ((Router.run addressManager twoCallers { manager := [] } overlap).phase false) := by
  have hcontext : ((Router.run addressManager twoCallers { manager := [] } overlap).phase false).context.map
      (fun ctx => ctx.mcpTools.map McpTool.name) = some ["http://b".toList] := by
    decide +kernel
  intro h
  obtain ⟨ctx, hctx, hnames⟩ := Option.map_eq_some_iff.mp hcontext
  obtain ⟨tool, htool, hname⟩ := List.mem_map.mp (hnames ▸ mem_singleton_self _)
  obtain ⟨key, hkey, hmem⟩ := (h.executes ctx hctx tool).mp htool
  have hkeys : ownKeys addressManager addressServers ((twoCallers false).request.tools.getD []) =
      ["http://a".toList] := by
    decide +kernel
  rcases hkey with hstatic | hkey
  · exact hstatic
  · rw [hkeys] at hkey
    obtain rfl := List.mem_singleton.mp hkey
    obtain rfl := List.mem_singleton.mp hmem
    exact absurd hname (by decide)

end QwenStack.Grpc
