import NgxRpc.Header

/-!
# Templates of the generator

The texts of `ngx_rpc_server_template.h` and `ngx_rpc_module_template.h`, line by line, and
the variables of `ngx_rpc_defines.h` that stand in them between dollar signs, in the
configuration between percent signs.

## Main definitions

- `lit` — the bytes of a string literal
- `Var` — a variable
-/

namespace NgxRpc

/-- The bytes of a string literal with the given characters. The characters are computed when
the literal is read, so that what is proved by computation does not decode it again. -/
def lit (text : String) {chars : List Char} (_ : text = String.ofList chars) : List UInt8 :=
  chars.map fun c => c.toNat.toUInt8

theorem lit_eq_asciiBytes {text : String} {chars : List Char} (h : text = String.ofList chars) :
    lit text h = asciiBytes text := by
  rw [lit, asciiBytes, h, String.toList_ofList]

namespace Generator

/-- A variable of a template. -/
inductive Var where
  | protoName
  | protoNameUpper
  | protoPackage
  | protoNamespace
  | protoNamepath
  | protoServerName
  | protoServerNameLower
  | protoServerMethodName
  | protoServerMethodRequestName
  | protoServerMethodResponseName
deriving DecidableEq

/-- The name of the variable in a template. -/
def Var.name : Var → List UInt8
  | .protoName => lit "PROTO_NAME" rfl
  | .protoNameUpper => lit "PROTO_NAME_UPPER" rfl
  | .protoPackage => lit "PROTO_PACKAGE" rfl
  | .protoNamespace => lit "PROTO_NAMESPACE" rfl
  | .protoNamepath => lit "PROTO_NAMEPATH" rfl
  | .protoServerName => lit "PROTO_SERVER_NAME" rfl
  | .protoServerNameLower => lit "PROTO_SERVER_NAME_LOWER" rfl
  | .protoServerMethodName => lit "PROTO_SERVER_METHOD_NAME" rfl
  | .protoServerMethodRequestName => lit "PROTO_SERVER_METHOD_REQUEST_NAME" rfl
  | .protoServerMethodResponseName => lit "PROTO_SERVER_METHOD_RESPONSE_NAME" rfl

def Var.all : List Var :=
  [.protoName, .protoNameUpper, .protoPackage, .protoNamespace, .protoNamepath, .protoServerName,
    .protoServerNameLower, .protoServerMethodName, .protoServerMethodRequestName,
    .protoServerMethodResponseName]

/-- The variable with the given name. -/
def Var.ofName (name : List UInt8) : Option Var := Var.all.find? fun v => v.name = name

theorem Var.ofName_name (v : Var) : Var.ofName v.name = some v := by
  cases v <;> rfl

/-! ## Templates of the server header -/

/-- `NGX_RPC_SERVER_HEADER_START`. -/
def ngxRpcServerHeaderStart : List (List UInt8) :=
  [lit "#ifndef __$PROTO_NAME_UPPER$_SERVER_IMPL_H__" rfl,
   lit "#define __$PROTO_NAME_UPPER$_SERVER_IMPL_H__" rfl]

/-- `NGX_RPC_SERVER_HEADER_END`. -/
def ngxRpcServerHeaderEnd : List (List UInt8) :=
  [lit "#endif // for __$PROTO_NAME_UPPER$_SERVER_IMPL_H_" rfl]

/-- `NGX_RPC_SERVER_INCLUDE`. -/
def ngxRpcServerInclude : List (List UInt8) :=
  [lit "#include \"$PROTO_NAME$.pb.h\"" rfl,
   lit "#include \"ngx_rpc_channel.h\"" rfl]

/-- `NGX_RPC_SERVER_NAMESPACE_START`. -/
def ngxRpcServerNamespaceStart : List (List UInt8) :=
  [lit "namespace $PROTO_NAMESPACE$ \x7b" rfl]

/-- `NGX_RPC_SERVER_NAMESPACE_END`. -/
def ngxRpcServerNamespaceEnd : List (List UInt8) :=
  [lit "\x7d // for $PROTO_NAMESPACE$" rfl]

/-- `NGX_RPC_SERVER_CLASS_START`. -/
def ngxRpcServerClassStart : List (List UInt8) :=
  [lit "class $PROTO_SERVER_NAME$_server " rfl,
   lit "\x7b" rfl,
   lit "public:" rfl,
   lit "    $PROTO_SERVER_NAME$_server(const std::string& conf_file)" rfl,
   lit "    \x7b" rfl,
   lit "    \x7d" rfl]

/-- `NGX_RPC_SERVER_CLASS_END`. -/
def ngxRpcServerClassEnd : List (List UInt8) :=
  [lit "\x7d; /// for class $PROTO_SERVER_NAME$_server" rfl]

/-- `NGX_RPC_SERVER_METHOD`. -/
def ngxRpcServerMethod : List (List UInt8) :=
  [lit "     void $PROTO_SERVER_METHOD_NAME$(RpcChannel *channel,const " rfl ++
     lit "$PROTO_SERVER_METHOD_REQUEST_NAME$* request," rfl,
   lit "                                     $PROTO_SERVER_METHOD_RESPONSE_NAME$*" rfl ++
     lit " response, RpcCallHandler done)" rfl,
   lit "    \x7b" rfl,
   lit "         DEBUG(\"$PROTO_SERVER_METHOD_NAME$ was called!\")" rfl,
   lit "" rfl,
   lit "         //finish this method" rfl,
   lit "         done(channel,request,response,NGX_HTTP_OK);" rfl,
   lit "    \x7d" rfl]

/-! ## Templates of the module -/

/-- `NGX_RPC_MODULE_INLUCDE`. -/
def ngxRpcModuleInlucde : List (List UInt8) :=
  [lit "" rfl,
   lit "extern \"C\" \x7b" rfl,
   lit "    #include \"ngx_http_rpc.h\"" rfl,
   lit "\x7d" rfl,
   lit "" rfl,
   lit "#include \"$PROTO_NAME$_impl.h\"" rfl,
   lit "#include \"ngx_rpc_channel.h\"" rfl,
   lit "" rfl,
   lit "using namespace $PROTO_NAMESPACE$;" rfl]

/-- `NGX_PRC_MODULE_CONF_START`. -/
def ngxPrcModuleConfStart : List (List UInt8) :=
  [lit "typedef struct" rfl,
   lit "\x7b" rfl]

/-- `NGX_RPC_MODULE_CONF_SERVERS`. -/
def ngxRpcModuleConfServers : List (List UInt8) :=
  [lit "    ngx_log_t *$PROTO_SERVER_NAME_LOWER$_log;" rfl,
   lit "    ngx_str_t  $PROTO_SERVER_NAME_LOWER$_conf_file;" rfl,
   lit "    ngx_str_t  $PROTO_SERVER_NAME_LOWER$_log_file;" rfl,
   lit "    $PROTO_SERVER_NAME$_server *$PROTO_SERVER_NAME_LOWER$_impl;" rfl]

/-- `NGX_PRC_MODULE_CONF_END`. -/
def ngxPrcModuleConfEnd : List (List UInt8) :=
  [lit "\x7d ngx_http_$PROTO_NAME$_conf_t;" rfl]

/-- `NGX_RPC_SERVER_SET_CONF`. -/
def ngxRpcServerSetConf : List (List UInt8) :=
  [lit "// register the $PROTO_SERVER_NAME$ to ngx_http_rpc_module" rfl,
   lit "static char *ngx_conf_set_$PROTO_NAME$_$PROTO_SERVER_NAME_LOWER" rfl ++
     lit "$_hanlder(ngx_conf_t *cf, ngx_command_t *cmd, void *conf);" rfl]

/-- `NGX_RPC_COMMANDS_START`. -/
def ngxRpcCommandsStart : List (List UInt8) :=
  [lit "static ngx_command_t ngx_http_$PROTO_NAME$_commands[] = \x7b" rfl]

/-- `NGX_RPC_COMMANDS_ITEMS`. -/
def ngxRpcCommandsItems : List (List UInt8) :=
  [lit "    " rfl,
   lit "    \x7b ngx_string(\"ngx_conf_set_$PROTO_NAME$_$PROTO_SERVER_NAME_LOWER$_hanlder\")," rfl,
   lit "      NGX_HTTP_LOC_CONF | NGX_CONF_ANY," rfl,
   lit "      ngx_conf_set_$PROTO_NAME$_$PROTO_SERVER_NAME_LOWER$_hanlder," rfl,
   lit "      NGX_HTTP_LOC_CONF_OFFSET," rfl,
   lit "      0," rfl,
   lit "      NULL\x7d," rfl,
   lit "    " rfl]

/-- `NGX_RPC_COMMANDS_END`. -/
def ngxRpcCommandsEnd : List (List UInt8) :=
  [lit "     ngx_null_command" rfl,
   lit "\x7d;" rfl]

/-- `NGX_RPC_HTTP_MODULE_DECALRES`. -/
def ngxRpcHttpModuleDecalres : List (List UInt8) :=
  [lit "static void* ngx_http_$PROTO_NAME$_create_loc_conf(ngx_conf_t *cf);" rfl]

/-- `NGX_RPC_HTTP_MODULE_DEFINE`. -/
def ngxRpcHttpModuleDefine : List (List UInt8) :=
  [lit "static ngx_http_module_t ngx_http_$PROTO_NAME$_module_ctx = \x7b" rfl,
   lit "    NULL,                /* preconfiguration */" rfl,
   lit "    NULL,                /* postconfiguration */" rfl,
   lit "" rfl,
   lit "    NULL,                /* create main configuration */" rfl,
   lit "    NULL,                /* init main configuration */" rfl,
   lit "" rfl,
   lit "    NULL,                /* create server configuration */" rfl,
   lit "    NULL,                /* merge server configuration */" rfl,
   lit "" rfl,
   lit "    ngx_http_$PROTO_NAME$_create_loc_conf,/* create location configuration */" rfl,
   lit "    NULL                 /* merge location configuration */" rfl,
   lit "\x7d;" rfl]

/-- `NGX_RPC_MOUDLE_DECARLES`. -/
def ngxRpcMoudleDecarles : List (List UInt8) :=
  [lit "static void ngx_$PROTO_NAME$_process_exit(ngx_cycle_t* cycle);" rfl]

/-- `NGX_RPC_MOUDLE_DEFINE`. -/
def ngxRpcMoudleDefine : List (List UInt8) :=
  [lit "extern \"C\" \x7b" rfl,
   lit "ngx_module_t ngx_http_$PROTO_NAME$_module = \x7b" rfl,
   lit "    NGX_MODULE_V1," rfl,
   lit "    &ngx_http_$PROTO_NAME$_module_ctx,        /* module context */" rfl,
   lit "    ngx_http_$PROTO_NAME$_commands,          /* module directives */" rfl,
   lit "    NGX_HTTP_MODULE,                         /* module type */" rfl,
   lit "    NULL,                                  /* init master */" rfl,
   lit "    /// there no where called init_master" rfl,
   lit "    /// but some where called init module instead" rfl,
   lit "    NULL,             /* init module */" rfl,
   lit "    NULL,             /* init process */" rfl,
   lit "    NULL,             /* init thread */" rfl,
   lit "    NULL,             /* exit thread */" rfl,
   lit "    ngx_$PROTO_NAME$_process_exit, /* exit process */" rfl,
   lit "    NULL,                     /* exit master */" rfl,
   lit "    NGX_MODULE_V1_PADDING" rfl,
   lit "\x7d;" rfl,
   lit "\x7d // for extern C" rfl]

/-- `NGX_RPC_CREATE_LOC_START`. -/
def ngxRpcCreateLocStart : List (List UInt8) :=
  [lit "static void* ngx_http_$PROTO_NAME$_create_loc_conf(ngx_conf_t *cf)" rfl,
   lit "\x7b" rfl,
   lit "    ngx_http_$PROTO_NAME$_conf_t *conf = (ngx_http_$PROTO_NAME$_conf_t" rfl ++
     lit " *)ngx_pcalloc(cf->pool," rfl,
   lit "                                              sizeof(ngx_http_$PROTO_NAME$_conf_t));" rfl,
   lit "" rfl]

/-- `NGX_RPC_CREATE_LOC_ITEMS`. -/
def ngxRpcCreateLocItems : List (List UInt8) :=
  [lit "    conf->$PROTO_SERVER_NAME_LOWER$_conf_file = ngx_string(\"\");" rfl,
   lit "    conf->$PROTO_SERVER_NAME_LOWER$_log_file  = ngx_string(\"\");" rfl,
   lit "    conf->$PROTO_SERVER_NAME_LOWER$_impl      = NULL;" rfl]

/-- `NGX_RPC_CREATE_LOC_END`. -/
def ngxRpcCreateLocEnd : List (List UInt8) :=
  [lit "    return conf;" rfl,
   lit "\x7d" rfl]

/-- `NGX_RPC_METHOD_PROCESS`. -/
def ngxRpcMethodProcess : List (List UInt8) :=
  [lit "static void ngxrpc_$PROTO_NAME$_$PROTO_SERVER_NAME_LOWER$_" rfl ++
     lit "$PROTO_SERVER_METHOD_NAME$(ngx_rpc_task_t* _this, void* p1)" rfl,
   lit "\x7b" rfl,
   lit "    ngx_http_rpc_ctx_t *rpc_ctx = (ngx_http_rpc_ctx_t *)p1;" rfl,
   lit "" rfl,
   lit "    RpcChannel *cntl = new RpcChannel(rpc_ctx->r);" rfl,
   lit "" rfl,
   lit "    cntl->task = _this;" rfl,
   lit "    cntl->req  = new $PROTO_SERVER_METHOD_REQUEST_NAME$();" rfl,
   lit "    cntl->res  = new $PROTO_SERVER_METHOD_RESPONSE_NAME$();" rfl,
   lit "" rfl,
   lit "    cntl->done =  std::bind(&RpcChannel::finish_request," rfl,
   lit "                                  std::placeholders::_1," rfl,
   lit "                                  std::placeholders::_2," rfl,
   lit "                                  std::placeholders::_3," rfl,
   lit "                                  std::placeholders::_4);" rfl,
   lit "" rfl,
   lit "" rfl,
   lit "    NgxChainBufferReader reader(_this->req_bufs);" rfl,
   lit "" rfl,
   lit "    if(!cntl->req->ParseFromZeroCopyStream(&reader))" rfl,
   lit "    \x7b" rfl,
   lit "         ngx_log_error(NGX_LOG_ERR, _this->log, 0," rfl,
   lit "                       \"ParseFromZeroCopyStream req_bufs:%p %d\"," rfl,
   lit "                        _this->req_bufs.buf->pos," rfl,
   lit "                       (_this->req_bufs.buf->last - _this->req_bufs.buf->pos));" rfl,
   lit "" rfl,
   lit "        cntl->done(cntl, cntl->req, cntl->res, NGX_HTTP_INTERNAL_SERVER_ERROR);" rfl,
   lit "        return;" rfl,
   lit "    \x7d" rfl,
   lit "" rfl,
   lit "    $PROTO_SERVER_NAME$_server * impl = ($PROTO_SERVER_NAME$_server *)" rfl ++
     lit " rpc_ctx->method->_impl;" rfl,
   lit "" rfl,
   lit "    //call the implement method" rfl,
   lit "    impl->$PROTO_SERVER_METHOD_NAME$(cntl, ($PROTO_SERVER_METHOD_REQUEST_NAME" rfl ++
     lit "$*)cntl->req, ($PROTO_SERVER_METHOD_RESPONSE_NAME$*)cntl->res, cntl->done);" rfl,
   lit "" rfl,
   lit "\x7d" rfl]

/-- `NGX_RPC_SET_SERVER_METHOD_START`. -/
def ngxRpcSetServerMethodStart : List (List UInt8) :=
  [lit "static char* ngx_conf_set_$PROTO_NAME$_$PROTO_SERVER_NAME_LOWER" rfl ++
     lit "$_hanlder(ngx_conf_t *cf, ngx_command_t *cmd, void *conf)" rfl,
   lit "\x7b" rfl,
   lit "" rfl,
   lit "    ngx_http_rpc_conf_t *rpc_conf = (ngx_http_rpc_conf_t *)" rfl,
   lit "            ngx_http_conf_get_module_main_conf(cf, ngx_http_rpc_module);" rfl,
   lit "" rfl,
   lit "    if(rpc_conf == NULL)" rfl,
   lit "    \x7b" rfl,
   lit "        ngx_conf_log_error(NGX_LOG_WARN, cf, 0, \"ngx_http_rpc_module not init\");" rfl,
   lit "        return (char*)\"ngx_http_rpc_module not init\";" rfl,
   lit "    \x7d" rfl,
   lit "" rfl,
   lit "    ngx_http_$PROTO_NAME$_conf_t *$PROTO_NAME$_conf = (ngx_http_$PROTO_NAME" rfl ++
     lit "$_conf_t*) conf;" rfl,
   lit "    ngx_str_t* value = (ngx_str_t*)cf->args->elts;" rfl,
   lit "" rfl,
   lit "    if(cf->args->nelts > 1)" rfl,
   lit "    \x7b" rfl,
   lit "         $PROTO_NAME$_conf->$PROTO_SERVER_NAME_LOWER$_conf_file = (value[1]);" rfl,
   lit "    \x7d" rfl,
   lit "" rfl,
   lit "    const std::string app_conf((const char *)$PROTO_NAME$_conf->" rfl ++
     lit "$PROTO_SERVER_NAME_LOWER$_conf_file.data);" rfl,
   lit "    $PROTO_NAME$_conf->$PROTO_SERVER_NAME_LOWER$_impl = new $PROTO_SERVER_NAME" rfl ++
     lit "$_server(app_conf);" rfl,
   lit "" rfl,
   lit "" rfl,
   lit "    $PROTO_NAME$_conf->$PROTO_SERVER_NAME_LOWER$_log = ngx_cycle->log;" rfl,
   lit "" rfl,
   lit "    if( cf->args->nelts > 2)" rfl,
   lit "    \x7b" rfl,
   lit "       $PROTO_NAME$_conf->$PROTO_SERVER_NAME_LOWER$_log_file = (value[2]);" rfl,
   lit "       $PROTO_NAME$_conf->$PROTO_SERVER_NAME_LOWER$_log  =" rfl ++
     lit " (ngx_log_t*)ngx_palloc(cf->pool, sizeof(ngx_log_t));" rfl,
   lit "       $PROTO_NAME$_conf->$PROTO_SERVER_NAME_LOWER$_log->file =" rfl ++
     lit " ngx_conf_open_file(cf->cycle, &value[1]);" rfl,
   lit "       $PROTO_NAME$_conf->$PROTO_SERVER_NAME_LOWER$_log->log_level = NGX_DEBUG;" rfl,
   lit "    \x7d" rfl,
   lit "" rfl]

/-- `NGX_RPC_SET_SERVER_METHOD_ITEM`. -/
def ngxRpcSetServerMethodItem : List (List UInt8) :=
  [lit "    " rfl,
   lit "    " rfl,
   lit "    \x7b" rfl,
   lit "        method_conf_t *method = (method_conf_t" rfl ++
     lit " *)ngx_array_push(rpc_conf->method_array);" rfl,
   lit "        method->name    = ngx_string(\"/$PROTO_NAMEPATH$/$PROTO_SERVER_NAME$/" rfl ++
     lit "$PROTO_SERVER_METHOD_NAME$\");" rfl,
   lit "        method->_impl   = $PROTO_NAME$_conf->$PROTO_SERVER_NAME_LOWER$_impl;" rfl,
   lit "        method->handler = ngxrpc_$PROTO_NAME$_$PROTO_SERVER_NAME_LOWER$_" rfl ++
     lit "$PROTO_SERVER_METHOD_NAME$;" rfl,
   lit "        method->log     = $PROTO_NAME$_conf->$PROTO_SERVER_NAME_LOWER$_log;" rfl,
   lit "    \x7d" rfl,
   lit "    " rfl,
   lit "    \x7b" rfl,
   lit "        method_conf_t *method = (method_conf_t" rfl ++
     lit " *)ngx_array_push(rpc_conf->method_array);" rfl,
   lit "        method->name    = ngx_string(\"/$PROTO_NAMEPATH$.$PROTO_SERVER_NAME$." rfl ++
     lit "$PROTO_SERVER_METHOD_NAME$\");" rfl,
   lit "        method->_impl   = $PROTO_NAME$_conf->$PROTO_SERVER_NAME_LOWER$_impl;" rfl,
   lit "        method->handler = ngxrpc_$PROTO_NAME$_$PROTO_SERVER_NAME_LOWER$_" rfl ++
     lit "$PROTO_SERVER_METHOD_NAME$;" rfl,
   lit "        method->log     = $PROTO_NAME$_conf->$PROTO_SERVER_NAME_LOWER$_log;" rfl,
   lit "    \x7d" rfl]

/-- `NGX_RPC_SET_SERVER_METHOD_END`. -/
def ngxRpcSetServerMethodEnd : List (List UInt8) :=
  [lit "" rfl,
   lit "" rfl,
   lit "     ngx_log_error(NGX_LOG_INFO, ngx_cycle->log, 0," rfl,
   lit "              \"ngx_conf_set_$PROTO_NAME$_$PROTO_SERVER_NAME_LOWER$_hanlder" rfl ++
     lit " with $PROTO_SERVER_NAME_LOWER$_impl:%p, conf file:%V log_file:%V\"," rfl,
   lit "              $PROTO_NAME$_conf->$PROTO_SERVER_NAME_LOWER$_impl," rfl,
   lit "              &$PROTO_NAME$_conf->$PROTO_SERVER_NAME_LOWER$_conf_file," rfl,
   lit "              &$PROTO_NAME$_conf->$PROTO_SERVER_NAME_LOWER$_log_file);" rfl,
   lit "" rfl,
   lit "" rfl,
   lit "     return NGX_OK;" rfl,
   lit "\x7d" rfl]

/-- `NGX_RPC_EXIT_START`. -/
def ngxRpcExitStart : List (List UInt8) :=
  [lit "static void ngx_$PROTO_NAME$_process_exit(ngx_cycle_t* cycle)" rfl,
   lit "\x7b" rfl,
   lit "    ngx_http_conf_ctx_t * ctx = (ngx_http_conf_ctx_t *)" rfl ++
     lit " cycle->conf_ctx[ngx_http_module.index];" rfl,
   lit "    ngx_http_$PROTO_NAME$_conf_t *c = (ngx_http_$PROTO_NAME$_conf_t *) ctx" rfl ++
     lit " ->loc_conf[ngx_http_module.ctx_index];" rfl,
   lit "" rfl,
   lit "    ngx_log_error(NGX_LOG_INFO, cycle->log, 0, \"ngx_$PROTO_NAME$_process_exit" rfl ++
     lit " done\");" rfl,
   lit "" rfl]

/-- `NGX_RPC_EXIT_ITEM`. -/
def ngxRpcExitItem : List (List UInt8) :=
  [lit "    // release the instance " rfl,
   lit "    delete c->$PROTO_SERVER_NAME_LOWER$_impl;" rfl,
   lit "" rfl]

/-- `NGX_RPC_EXIT_END`. -/
def ngxRpcExitEnd : List (List UInt8) :=
  [lit "" rfl,
   lit "\x7d" rfl]

/-! ## Template of the configuration -/

/-- `NGX_RPC_CONFIG`, in which variables stand between percent signs. -/
def ngxRpcConfig : List (List UInt8) :=
  [lit "#Add this module when configure nginx with" rfl ++
     lit " --add-module=\"ngx_rpc_%PROTO_NAME%_module\"" rfl,
   lit "#this is the module name" rfl,
   lit "ngx_addon_name=\"ngx_http_%PROTO_NAME%_module\"" rfl,
   lit "" rfl,
   lit "HTTP_MODULES=\"$HTTP_MODULES ngx_http_%PROTO_NAME%_module \"" rfl,
   lit "" rfl,
   lit "#sources files with lowwer case" rfl,
   lit "NGX_ADDON_SRCS=\"$NGX_ADDON_SRCS \\" rfl,
   lit "    $ngx_addon_dir/%PROTO_NAME%.pb.cc \\" rfl,
   lit "    $ngx_addon_dir/ngx_http_%PROTO_NAME%_module.cpp \"" rfl,
   lit "" rfl,
   lit "#this header files" rfl,
   lit "NGX_ADDON_DEPS=\"$NGX_ADDON_DEPS \\" rfl,
   lit "    $ngx_addon_dir/%PROTO_NAME%_impl.h \\" rfl,
   lit "    $ngx_addon_dir/%PROTO_NAME%.pb.h \"" rfl,
   lit "" rfl,
   lit "CORE_INCS=\"$CORE_INCS $ngx_addon_dir\"" rfl,
   lit "" rfl]

end Generator

end NgxRpc
