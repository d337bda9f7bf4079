/-!
The commands and functions the engine provides, in lower case.
-/

namespace SqfIndex.Name

/-- Flow and scripting. -/
def flowAndScriptingCommands : List String :=
  ["breakout", "breakto", "callextension", "cansuspend", "continue", "continuewith", "exit",
    "halt", "isnotequalto", "isequalto", "isequaltype", "isequaltypeall", "isequaltypeany",
    "isequaltypearray", "isequaltypeparams", "loadfile", "remoteexec", "remoteexeccall",
    "scopename", "scriptdone", "sleep", "uisleep", "terminate", "typename", "diag_ticktime",
    "diag_frameno", "diag_fps", "diag_activescripts", "time", "servertime", "daytime", "date",
    "acctime", "settimemultiplier", "skiptime", "random", "floor", "ceil", "round", "abs",
    "sqrt", "sin", "cos", "tan", "asin", "acos", "atan", "atan2", "exp", "ln", "log", "min",
    "max", "mod", "pi", "linearconversion", "parsenumber", "parsesimplearray", "tofixed"]

/-- Strings. -/
def stringsCommands : List String :=
  ["tolower", "toupper", "toarray", "tostring", "trim", "splitstring", "joinstring", "find",
    "findif", "insert", "localize", "formattext", "parsetext", "composetext", "text", "endl",
    "linebreak", "regexmatch", "regexfind", "regexreplace", "hashvalue"]

/-- Arrays and hashmaps. -/
def arraysAndHashmapsCommands : List String :=
  ["append", "apply", "arrayintersect", "deleteat", "deleterange", "pushback",
    "pushbackunique", "resize", "reverse", "set", "sort", "selectrandom",
    "selectrandomweighted", "selectmax", "selectmin", "in", "createhashmap",
    "createhashmapfromarray", "get", "getordefault", "getordefaultcall", "keys", "values",
    "merge", "tohashmap"]

/-- Namespaces and variables. -/
def namespacesAndVariablesCommands : List String :=
  ["setvariable", "getvariable", "allvariables", "publicvariable", "publicvariableclient",
    "publicvariableserver", "addpublicvariableeventhandler", "servernamespace",
    "localnamespace", "currentnamespace"]

/-- Machine and network. -/
def machineAndNetworkCommands : List String :=
  ["isserver", "isdedicated", "hasinterface", "ismultiplayer", "isremoteexecuted",
    "isremoteexecutedjip", "clientowner", "remoteexecutedowner", "local", "owner", "setowner",
    "didjip", "missionname", "worldname", "worldsize", "missionstart", "productversion",
    "profilename", "getplayeruid", "name", "allplayers", "playableunits", "switchableunits"]

/-- Objects and units. -/
def objectsAndUnitsCommands : List String :=
  ["allunits", "alldead", "allgroups", "vehicles", "entities", "allmissionobjects",
    "nearestobject", "nearestobjects", "nearobjects", "nearentities", "createvehicle",
    "createvehiclelocal", "createunit", "creategroup", "createagent", "createsimpleobject",
    "deletevehicle", "deletegroup", "deletewaypoint", "alive", "damage", "setdamage", "gethit",
    "sethit", "gethitpointdamage", "sethitpointdamage", "getdammage", "setdammage", "typeof",
    "iskindof", "side", "group", "leader", "units", "vehicle", "driver", "gunner", "commander",
    "crew", "assigneddriver", "fullcrew", "moveindriver", "moveingunner", "moveincargo",
    "moveinany", "moveout", "assignasdriver", "assignascargo", "unassignvehicle", "ordergetin",
    "allowgetin", "joinsilent", "join", "setgroupid", "groupid", "selectleader",
    "setbehaviour", "behaviour", "setcombatmode", "combatmode", "setspeedmode", "speedmode",
    "setformation", "formation", "setunitpos", "unitpos", "setskill", "skill", "setcaptive",
    "captive", "allowdamage", "isdamageallowed", "enablesimulation", "enablesimulationglobal",
    "simulationenabled", "hideobject", "hideobjectglobal", "isobjecthidden", "attachto",
    "detach", "attachedto", "attachedobjects", "disableai", "enableai", "dofollow", "domove",
    "dostop", "dowatch", "dotarget", "dofire", "commandmove", "move", "stop", "fire",
    "forcespeed", "setfuel", "fuel", "setvehicleammo", "setvehiclelock", "locked", "lock",
    "engineon", "isengineon", "speed", "velocity", "setvelocity", "direction", "getdir",
    "setdir", "setformdir", "vectordir", "vectorup", "setvectordir", "setvectorup",
    "setvectordirandup", "getpos", "setpos", "getposatl", "setposatl", "getposasl",
    "setposasl", "getposworld", "setposworld", "getposaslw", "getposvisual", "getrelpos",
    "modeltoworld", "worldtomodel", "modeltoworldvisual", "position", "visibleposition",
    "distance", "distance2d", "distancesqr", "inarea", "inareaarray", "isflatempty",
    "findemptyposition", "surfaceiswater", "surfacenormal", "getterrainheightasl",
    "lineintersects", "lineintersectssurfaces", "terrainintersect", "checkvisibility",
    "knowsabout", "reveal", "targets", "neartargets", "assignedtarget", "cursorobject",
    "cursortarget", "lifestate", "incapacitatedstate", "isplayer", "objectparent", "netid",
    "objectfromnetid", "groupfromnetid", "setunitloadout", "getunitloadout", "additem",
    "removeitem", "items", "assigneditems", "linkitem", "unlinkitem", "addweapon",
    "removeweapon", "removeallweapons", "removeallitems", "removeallassigneditems", "weapons",
    "primaryweapon", "secondaryweapon", "handgunweapon", "currentweapon", "selectweapon",
    "addmagazine", "addmagazines", "removemagazine", "removemagazines", "magazines",
    "addprimaryweaponitem", "adduniform", "addvest", "addbackpack", "addheadgear",
    "addgoggles", "removeuniform", "removevest", "removebackpack", "removeheadgear",
    "removegoggles", "uniform", "vest", "backpack", "headgear", "goggles", "uniformcontainer",
    "vestcontainer", "backpackcontainer", "additemcargo", "additemcargoglobal",
    "addweaponcargo", "addweaponcargoglobal", "addmagazinecargo", "addmagazinecargoglobal",
    "addbackpackcargo", "addbackpackcargoglobal", "clearitemcargo", "clearitemcargoglobal",
    "clearweaponcargo", "clearweaponcargoglobal", "clearmagazinecargo",
    "clearmagazinecargoglobal", "clearbackpackcargo", "clearbackpackcargoglobal", "setface",
    "setspeaker", "setname", "setrank", "rank", "setunittrait", "getunittrait", "switchmove",
    "playmove", "playmovenow", "animationstate", "playaction", "setmimic", "say", "say2d",
    "say3d", "playsound", "playsound3d", "playmusic", "sidechat", "globalchat", "groupchat",
    "vehiclechat", "commandchat", "systemchat", "titletext", "titlecut", "titlersc", "cuttext",
    "cutrsc", "hintc", "hintsilent", "addaction", "removeaction", "removeallactions",
    "addeventhandler", "removeeventhandler", "removealleventhandlers", "addmpeventhandler",
    "removempeventhandler", "addmissioneventhandler", "removemissioneventhandler",
    "adddisplayeventhandler", "addusercontroleventhandler", "setvehicleinit",
    "setvehiclevarname", "vehiclevarname", "setobjecttexture", "setobjecttextureglobal",
    "setobjectmaterial", "setmass", "getmass", "setcenterofmass", "sethitindex", "setfriend",
    "getfriend", "createcenter", "sideunknown", "west", "east", "resistance", "independent",
    "civilian", "sidelogic", "sideenemy", "sidefriendly", "sideempty", "blufor", "opfor"]

/-- Waypoints, markers, triggers, tasks. -/
def waypointsMarkersTriggersTasksCommands : List String :=
  ["addwaypoint", "setwaypointtype", "setwaypointbehaviour", "setwaypointcombatmode",
    "setwaypointspeed", "setwaypointformation", "setwaypointstatements", "setwaypointposition",
    "setcurrentwaypoint", "currentwaypoint", "waypoints", "waypointposition", "createmarker",
    "createmarkerlocal", "deletemarker", "deletemarkerlocal", "setmarkerpos",
    "setmarkerposlocal", "getmarkerpos", "setmarkertype", "setmarkertypelocal",
    "getmarkertype", "setmarkercolor", "setmarkercolorlocal", "getmarkercolor",
    "setmarkertext", "setmarkertextlocal", "markertext", "setmarkersize", "setmarkersizelocal",
    "getmarkersize", "setmarkershape", "setmarkershapelocal", "setmarkerbrush",
    "setmarkeralpha", "setmarkeralphalocal", "setmarkerdir", "markerdir", "allmapmarkers",
    "createtrigger", "settriggerarea", "settriggeractivation", "settriggerstatements",
    "settriggertimeout", "triggeractivated", "list", "createsimpletask", "settaskstate",
    "taskstate", "setsimpletaskdescription", "setsimpletaskdestination", "setcurrenttask",
    "currenttask"]

/-- UI. -/
def uiCommands : List String :=
  ["createdialog", "closedialog", "createdisplay", "finddisplay", "displayctrl",
    "displayaddeventhandler", "displayremoveeventhandler", "closedisplay", "ctrlsettext",
    "ctrltext", "ctrlsetstructuredtext", "ctrlshow", "ctrlenable", "ctrlsetposition",
    "ctrlposition", "ctrlcommit", "ctrlcreate", "ctrldelete", "ctrladdeventhandler",
    "ctrlremoveeventhandler", "ctrlsetfade", "ctrlsettextcolor", "ctrlsetbackgroundcolor",
    "lbadd", "lbclear", "lbsetdata", "lbdata", "lbsetvalue", "lbvalue", "lbcursel",
    "lbsetcursel", "lbsize", "lbtext", "dialog", "safezonex", "safezoney", "safezonew",
    "safezoneh", "getresolution", "openmap", "visiblemap", "showmap", "showchat", "showhud",
    "showcommandingmenu", "disableuserinput", "enablesaving", "cameraeffect", "camcreate",
    "camdestroy", "camsettarget", "camsetpos", "camcommit", "camcommitted", "switchcamera",
    "cameraview", "positioncameratoworld", "worldtoscreen", "screentoworld"]

/-- Environment. -/
def environmentCommands : List String :=
  ["setdate", "setovercast", "overcast", "setrain", "rain", "setfog", "fog", "setwind",
    "wind", "setlightnings", "forceweatherchange", "sunormoon", "setviewdistance",
    "viewdistance", "setobjectviewdistance", "setterraingrid", "enableenvironment"]

/-- Mission. -/
def missionCommands : List String :=
  ["endmission", "failmission", "forceend", "endloadingscreen", "startloadingscreen",
    "progressloadingscreen", "savegame", "estimatedtimeleft", "setplayerrespawntime",
    "forcerespawn", "selectplayer", "enableradio", "enablesentences", "enableteamswitch",
    "setgroupiconsvisible", "addscore", "score", "addrating", "rating"]

/-- Config. -/
def configCommands : List String :=
  ["configfile", "missionconfigfile", "campaignconfigfile", "configclasses", "configname",
    "configproperties", "confighierarchy", "inheritsfrom", "isclass", "istext", "isnumber",
    "isarray", "getnumber", "gettext", "getarray", "gettextraw", "getmissionconfigvalue",
    "getmissionconfig"]

/-- Types. -/
def typesCommands : List String :=
  ["isfinal", "tofinal", "compilescript", "vectoradd", "vectordiff", "vectormultiply",
    "vectordistance", "vectormagnitude", "vectornormalized", "vectordotproduct",
    "vectorcrossproduct", "vectorfromto", "vectorlinearconversion", "getdirvisual",
    "vectormodeltoworld", "vectorworldtomodel", "ctrlnull", "teammembernull", "confignull",
    "diaryrecordnull"]

/-- Every engine command. -/
def engineCommands : List String :=
  flowAndScriptingCommands ++ stringsCommands ++ arraysAndHashmapsCommands
    ++ namespacesAndVariablesCommands ++ machineAndNetworkCommands ++ objectsAndUnitsCommands
    ++ waypointsMarkersTriggersTasksCommands ++ uiCommands ++ environmentCommands
    ++ missionCommands ++ configCommands ++ typesCommands

end SqfIndex.Name
