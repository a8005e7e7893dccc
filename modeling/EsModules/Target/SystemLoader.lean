/-!
# The loader for `System` modules

The script that runs the modules of the `system` format.
-/

namespace EsModules
namespace Target

/-- The lines of the loader script. -/
def systemLoaderLines : List String :=
  ["(function (global) \x7b",
   "  \"use strict\";",
   "",
   "  if (global.System && global.System.__modshift__) \x7b",
   "    return;",
   "  \x7d",
   "",
   "  var registry = \x7b\x7d;",
   "",
   "  function register(name, deps, declare) \x7b",
   "    if (Object.prototype.hasOwnProperty.call(registry, name)) \x7b",
   "      return;",
   "    \x7d",
   "    registry[name] = \x7b deps: deps, declare: declare, entry: null, executed: false \x7d;",
   "  \x7d",
   "",
   "  function link(name) \x7b",
   "    var record = registry[name];",
   "    if (!record.entry) \x7b",
   "      record.entry = record.declare();",
   "    \x7d",
   "    return record.entry;",
   "  \x7d",
   "",
   "  function load(name) \x7b",
   "    if (!Object.prototype.hasOwnProperty.call(registry, name)) \x7b",
   "      if (typeof require === \"function\") \x7b",
   "        return require(name);",
   "      \x7d",
   "      throw new Error(\"Module '\" + name + \"' is not registered\");",
   "    \x7d",
   "",
   "    var record = registry[name];",
   "    var entry = link(name);",
   "    if (!record.executed) \x7b",
   "      record.executed = true;",
   "      var handles = record.deps.map(load);",
   "      entry.fn.apply(undefined, handles);",
   "    \x7d",
   "    return entry.exports;",
   "  \x7d",
   "",
   "  global.System = \x7b",
   "    __modshift__: true,",
   "    register: register,",
   "    import: load,",
   "    get: function (name) \x7b",
   "      var record = registry[name];",
   "      return record && record.executed ? record.entry.exports : undefined;",
   "    \x7d,",
   "    has: function (name) \x7b",
   "      return Object.prototype.hasOwnProperty.call(registry, name);",
   "    \x7d",
   "  \x7d;",
   "\x7d)(typeof globalThis !== \"undefined\" ? globalThis : this);"]

/-- A small `System` object.  Modules are known by their registration names, and one that runs
already is handed out as it is when a cycle reaches it again. -/
def systemLoader : String :=
  String.join (systemLoaderLines.map (· ++ "\n"))

end Target
end EsModules
