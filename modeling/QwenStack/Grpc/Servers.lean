import Mathlib.Data.List.Infix
import QwenStack.Grpc.Streaming
import QwenStack.Manual.Definitions

/-!
# Responses over chat — MCP servers

`gateway/src/routers/mcp_utils.rs` and `grpc/common/responses/utils.rs`: a request names MCP servers with its
tools, a client is got for each of them, and the keys of those that could be reached are kept.

The manager of the clients is another crate's, and a parameter (`McpManager`).  It has the tools of the
static servers and of those that a client was got for; it lists all of them, or those of the static servers
and of some keys (`McpManager.Serves`).
-/

namespace QwenStack.Grpc

inductive McpTransport where
  | sse (url : Str) (token : Option Str)
  | streamable (url : Str) (token : Option Str)
  deriving DecidableEq, Repr

/-- `McpServerConfig`; there is no proxy, and the server is not required. -/
structure McpServerConfig where
  name : Str
  transport : McpTransport
  deriving DecidableEq, Repr

/-- `McpManager`, with what it keeps. -/
structure McpManager (μ : Type) where
  serverKey : McpServerConfig → Str
  /-- Whether there is a client, and the manager then. -/
  getOrCreateClient : McpServerConfig → μ → Bool × μ
  listTools : μ → List McpTool
  listToolsForServers : List Str → μ → List McpTool

/-! ### The servers of a request -/

/-- The server that a tool names, if its address has a scheme that is supported. -/
def ResponseTool.serverConfig (tool : ResponseTool) : Option McpServerConfig :=
  if tool.type = .mcp then
    tool.serverUrl.bind fun url =>
      let serverUrl := Manual.trim url
      if "http://".toList <+: serverUrl ∨ "https://".toList <+: serverUrl then
        some {
          name := tool.serverLabel.getD "request-mcp".toList
          transport :=
            if "/sse".toList <:+: serverUrl then .sse serverUrl tool.authorization
            else .streamable serverUrl tool.authorization }
      else none
  else none

/-- A key is kept once. -/
def trackServer (serverKeys : List Str) (serverKey : Str) : List Str :=
  if serverKey ∈ serverKeys then serverKeys else serverKeys ++ [serverKey]

/-- One tool of `ensure_request_mcp_client`. -/
def ensureClient {μ : Type} (mgr : McpManager μ) (manager : μ) (serverKeys : List Str)
    (tool : ResponseTool) : μ × List Str :=
  match tool.serverConfig with
  | none => (manager, serverKeys)
  | some config =>
      match mgr.getOrCreateClient config manager with
      | (true, manager) => (manager, trackServer serverKeys (mgr.serverKey config))
      | (false, manager) => (manager, serverKeys)

/-- The request declares MCP tools. -/
def hasMcpTools (tools : Option (List ResponseTool)) : Bool :=
  (tools.getD []).any fun tool => tool.type = .mcp

/-- The error of `ensure_mcp_connection`. -/
def connectFailed : ErrorResponse where
  status := 424
  code := "connect_mcp_server_failed".toList
  message := "Failed to connect to MCP servers. Check server_url and authorization.".toList

/-! ### What the servers have -/

/-- The servers: which are static, the tools of each, which can be reached, and which a manager has a client
for. -/
structure McpServers (μ : Type) where
  isStatic : Str → Prop
  tools : Str → List McpTool
  reachable : McpServerConfig → Bool
  connected : μ → Str → Prop

namespace McpServers
variable {μ : Type} (servers : McpServers μ)

/-- A tool of a static server, or of one of some others. -/
def Offers (keys : Str → Prop) (tool : McpTool) : Prop :=
  ∃ key, (servers.isStatic key ∨ keys key) ∧ tool ∈ servers.tools key

variable {servers}

theorem offers_congr {keys keys' : Str → Prop} (h : ∀ key, keys key ↔ keys' key) (tool : McpTool) :
    servers.Offers keys tool ↔ servers.Offers keys' tool := by
  simp only [Offers, h]

theorem Offers.mono {keys keys' : Str → Prop} (h : ∀ key, keys key → keys' key) {tool : McpTool}
    (htool : servers.Offers keys tool) : servers.Offers keys' tool := by
  obtain ⟨key, hkey, hmem⟩ := htool
  exact ⟨key, hkey.imp id (h key), hmem⟩

end McpServers

/-- The manager lists what the servers have: all that it knows, or those of some keys.  It gets a client for
a server that can be reached, and keeps those it has. -/
structure McpManager.Serves {μ : Type} (mgr : McpManager μ) (servers : McpServers μ) : Prop where
  listTools : ∀ manager tool, tool ∈ mgr.listTools manager ↔
    servers.Offers (servers.connected manager) tool
  listToolsForServers : ∀ keys manager tool, tool ∈ mgr.listToolsForServers keys manager ↔
    servers.Offers (fun key => key ∈ keys ∧ servers.connected manager key) tool
  client : ∀ config manager, (mgr.getOrCreateClient config manager).1 = servers.reachable config
  connected : ∀ config manager key, servers.connected (mgr.getOrCreateClient config manager).2 key ↔
    servers.connected manager key ∨ (servers.reachable config = true ∧ key = mgr.serverKey config)

section Own
variable {μ : Type} (mgr : McpManager μ) (servers : McpServers μ)

/-- The key of the server of a tool, if it can be reached. -/
def ResponseTool.ownKey (tool : ResponseTool) : Option Str :=
  tool.serverConfig.bind fun config =>
    if servers.reachable config = true then some (mgr.serverKey config) else none

/-- The keys of the servers that some tools name. -/
def ownKeys (tools : List ResponseTool) : List Str :=
  (tools.filterMap (ResponseTool.ownKey mgr servers)).foldl trackServer []

/-- **The tools of a request**: those of the servers that it names, and of the static ones. -/
def OwnTool (request : ResponsesRequest) (tool : McpTool) : Prop :=
  servers.Offers (· ∈ ownKeys mgr servers (request.tools.getD [])) tool

theorem mem_trackServer {serverKeys : List Str} {serverKey key : Str} :
    key ∈ trackServer serverKeys serverKey ↔ key ∈ serverKeys ∨ key = serverKey := by
  unfold trackServer
  split
  · next hmem => exact ⟨.inl, fun h => h.elim id fun heq => heq ▸ hmem⟩
  · rw [List.mem_append, List.mem_singleton]

theorem ownKeys_concat (past : List ResponseTool) (tool : ResponseTool) :
    ownKeys mgr servers (past ++ [tool]) =
      (tool.ownKey mgr servers).toList.foldl trackServer (ownKeys mgr servers past) := by
  rw [ownKeys, ownKeys, List.filterMap_append, List.foldl_append]
  cases h : tool.ownKey mgr servers with
  | none => rw [List.filterMap_cons_none h]; rfl
  | some key => rw [List.filterMap_cons_some h]; rfl

variable {mgr servers}

/-- **A tool of a request**: its server is kept if it can be reached, and then there is a client. -/
theorem ensureClient_spec (hserves : mgr.Serves servers) (manager : μ) (past : List ResponseTool)
    (tool : ResponseTool) :
    (ensureClient mgr manager (ownKeys mgr servers past) tool).2 =
        ownKeys mgr servers (past ++ [tool]) ∧
      ∀ key, servers.connected (ensureClient mgr manager (ownKeys mgr servers past) tool).1 key ↔
        servers.connected manager key ∨ tool.ownKey mgr servers = some key := by
  rw [ownKeys_concat]
  unfold ensureClient ResponseTool.ownKey
  cases hconfig : tool.serverConfig with
  | none => simp
  | some config =>
    have hclient := hserves.client config manager
    have hconnected := hserves.connected config manager
    rcases hget : mgr.getOrCreateClient config manager with ⟨ok, manager'⟩
    rw [hget] at hclient hconnected
    dsimp only at hclient hconnected ⊢
    rw [← hclient] at hconnected
    rw [hget, Option.bind_some, ← hclient]
    cases ok with
    | false => exact ⟨rfl, fun key => by simp [hconnected]⟩
    | true => exact ⟨rfl, fun key => by simp [hconnected, eq_comm]⟩

end Own

end QwenStack.Grpc
