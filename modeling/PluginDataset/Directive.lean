import PluginDataset.Dataset.Basic

/-!
# Directives

The parts of a script (plays, roles, blocks and tasks) declare attributes in groups. Every public
attribute is a directive that the declaring parts accept. A short table of overrides replaces the
kinds of some directives afterwards.

## Main definitions

* `PartKind` is a kind of script part with its attributes; `PartKind.all` lists the built-in ones.
* `DirectiveIndex.ofKinds` builds the index of directives.
-/

namespace PluginDataset

/-- A declared attribute. A private one is no directive. -/
structure Attribute where
  name : String
  isPrivate : Bool := false
deriving DecidableEq, Repr

/-- A kind of script part and the groups of attributes that it declares. -/
structure PartKind where
  name : String
  groups : List (List Attribute)
deriving DecidableEq, Repr

/-- The declared attributes in the order of their groups. -/
def PartKind.attributes (k : PartKind) : List Attribute :=
  k.groups.flatten

/-- Sets the kinds of a directive, whatever parts declare it. -/
structure DirectiveOverride where
  key : String
  kinds : List String
deriving DecidableEq, Repr

def actionDirective : String := "action"

/-- The other name of `actionDirective`, for a module that runs on the controller. -/
def localActionDirective : String := "local_action"

/-- The start of the looping keywords, which name a lookup plugin after it. -/
def loopDirective : String := "with_"

namespace PartKind

def publicGroup (names : List String) : List Attribute :=
  names.map fun name => { name }

def base : List Attribute :=
  publicGroup ["name", "connection", "port", "remote_user", "vars", "environment", "no_log",
    "always_run", "run_once", "ignore_errors", "check_mode", "diff", "any_errors_fatal"]

def becoming : List Attribute :=
  publicGroup ["become", "become_method", "become_user", "become_flags"]

def conditional : List Attribute :=
  publicGroup ["when"]

def taggable : List Attribute :=
  publicGroup ["tags"]

/-- Attributes that run a part on behalf of another host. -/
def delegatable : List Attribute :=
  publicGroup ["delegate_to", "delegate_facts"]

def playOnly : List Attribute :=
  publicGroup ["accelerate", "accelerate_ipv6", "accelerate_port", "fact_path", "gather_facts",
    "gather_subset", "gather_timeout", "hosts", "handlers", "pre_tasks", "post_tasks", "tasks",
    "roles", "vars_files", "vars_prompt", "vault_password", "force_handlers",
    "max_fail_percentage", "serial", "strategy", "order"]

def blockOnly : List Attribute :=
  publicGroup ["block", "rescue", "always"]

def taskOnly : List Attribute :=
  publicGroup ["action", "args", "async", "changed_when", "delay", "failed_when"] ++
    [⟨"loop", true⟩, ⟨"loop_args", true⟩] ++
    publicGroup ["loop_control", "notify", "poll", "register", "retries", "until"]

def play : PartKind := ⟨"Play", [base, taggable, becoming, playOnly]⟩

def role : PartKind := ⟨"Role", [base, becoming, conditional, taggable, delegatable]⟩

def block : PartKind :=
  ⟨"Block", [base, becoming, conditional, taggable, blockOnly, delegatable]⟩

def task : PartKind :=
  ⟨"Task", [base, conditional, taggable, becoming, taskOnly, delegatable]⟩

/-- The built-in kinds, in the order of aggregation. -/
def all : List PartKind :=
  [play, role, block, task]

/-- The directives that an attribute makes: its name, and for the action its other name too. -/
def directivesOf (a : Attribute) : List String :=
  if a.isPrivate then []
  else if a.name = actionDirective then [a.name, localActionDirective]
  else [a.name]

/-- The directives of a kind, once for each attribute that makes them. -/
def directives (k : PartKind) : List String :=
  k.attributes.flatMap directivesOf

end PartKind

def DirectiveOverride.all : List DirectiveOverride :=
  [⟨loopDirective, ["Task"]⟩]

namespace DirectiveIndex

def add (index : DirectiveIndex) (directive kind : String) : DirectiveIndex :=
  Keyed.update directive (fun bucket => bucket.getD [] ++ [kind]) index

/-- Appends a kind to the buckets of its directives. -/
def addKind (index : DirectiveIndex) (k : PartKind) : DirectiveIndex :=
  k.directives.foldl (fun index directive => add index directive k.name) index

/-- The index after the given kinds, before any override. -/
def aggregate (kinds : List PartKind) : DirectiveIndex :=
  kinds.foldl addKind []

/-- Replaces the bucket of each override, in order. -/
def override (index : DirectiveIndex) (overrides : List DirectiveOverride) : DirectiveIndex :=
  overrides.foldl (fun index o => Keyed.put o.key o.kinds index) index

/-- The index of the given kinds with the given overrides. -/
def ofKinds (kinds : List PartKind) (overrides : List DirectiveOverride) : DirectiveIndex :=
  override (aggregate kinds) overrides

/-- The index of the built-in kinds and overrides. -/
def standard : DirectiveIndex :=
  ofKinds PartKind.all DirectiveOverride.all

end DirectiveIndex

end PluginDataset
